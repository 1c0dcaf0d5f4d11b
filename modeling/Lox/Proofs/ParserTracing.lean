import Lox.Proofs.Reading
import Lox.Proofs.TreeLikeness

/-!
# What a tree is made from

A reader decides by the kinds, texts and values of tokens. The name table does not matter to it, and
the spans and lines of tokens only turn up in the spans of nodes and in errors.

* `Correspondence`: how spans, lines and name tables of two readings correspond;
* `Agree`: readers that do the same at places that correspond, with a rule for each way to build
  readers;
* one lemma for each reader;
* `parse_like`: what is read from token lists that correspond;
* `Spans`, `parse_names`, `parse_bound`: what is read from one token list.
-/

namespace Lox

/-! ### Places that correspond -/

/-- How spans, lines and name tables of two readings correspond. Spans that are put together from
corresponding ones correspond, as do name tables that have grown by the same text. -/
structure Correspondence where
  spans : Span → Span → Prop
  lines : Nat → Nat → Prop
  names : NameTable → NameTable → Prop
  merge : ∀ {s s' t t' : Span}, spans s s' → spans t t' → spans (s.merge t) (s'.merge t')
  stop : ∀ {s s' : Span}, spans s s' → spans (.point s.stop) (.point s'.stop)
  firstLine : lines 1 1
  insert : ∀ {names₁ names₂ : NameTable} (text : String), names names₁ names₂ →
    names (names₁.insert text) (names₂.insert text)

/-- Marks with the same number, whose spans correspond. -/
def Correspondence.marks (K : Correspondence) (m m' : Mark) : Prop :=
  m.number = m'.number ∧ K.spans m.span m'.span

variable (K : Correspondence)

/-- Tokens that are the same but for their places. -/
structure Token.Like (t t' : Token) : Prop where
  kind : t.kind = t'.kind
  lexeme : t.lexeme = t'.lexeme
  payload : t.payload = t'.payload
  line : K.lines t.line t'.line
  span : K.spans t.span t'.span

/-- Errors that are the same but for their places. -/
structure ParseError.Like (e e' : ParseError) : Prop where
  fault : e.fault = e'.fault
  found : e.found = e'.found
  line : K.lines e.line e'.line
  span : K.spans e.span e'.span

/-- Places in two token lists, behind which tokens correspond, and before which the same was
made. -/
structure Cursor.Like (c c' : Cursor) : Prop where
  rest : List.Forall₂ (Token.Like K) c.rest c'.rest
  last : K.spans c.last c'.last
  exprCount : c.exprCount = c'.exprCount
  stmtCount : c.stmtCount = c'.stmtCount
  targets : List.Forall₂ (Expr.Like K.marks) c.targets c'.targets
  names : K.names c.names c'.names

variable {K}

theorem Token.Like.isEnd {t t' : Token} (h : t.Like K t') : t.isEnd = t'.isEnd := by
  rw [Token.isEnd, Token.isEnd, h.kind]

theorem Token.Like.error {t t' : Token} (h : t.Like K t') (fault : ParseFault) :
    (ParseError.ofToken fault t).Like K (.ofToken fault t') :=
  ⟨rfl, by simp [ParseError.ofToken, h.isEnd, h.lexeme], h.line, h.span⟩

theorem Token.Like.literal? {t t' : Token} (h : t.Like K t') :
    Parser.literal? t = Parser.literal? t' := by
  unfold Parser.literal?
  rw [h.kind, h.payload]

theorem Expr.Like.span {e e' : Expr} (h : e.Like K.marks e') : K.spans e.span e'.span := by
  cases h with
  | _ mark => exact mark.2

namespace Cursor.Like

variable {c c' : Cursor}

theorem current (h : c.Like K c') : c.current.Like K c'.current := by
  obtain ⟨rest, last, exprCount, stmtCount, targets, names⟩ := c
  obtain ⟨rest', last', exprCount', stmtCount', targets', names'⟩ := c'
  obtain ⟨hrest, hlast, -, -, -, -⟩ := h
  cases hrest with
  | nil => exact ⟨rfl, rfl, rfl, K.firstLine, K.stop hlast⟩
  | cons head _ => exact head

theorem nextKind (h : c.Like K c') : c.nextKind = c'.nextKind := by
  obtain ⟨rest, last, exprCount, stmtCount, targets, names⟩ := c
  obtain ⟨rest', last', exprCount', stmtCount', targets', names'⟩ := c'
  obtain ⟨hrest, -, -, -, -, -⟩ := h
  cases hrest with
  | nil => rfl
  | cons _ tail =>
    cases tail with
    | nil => rfl
    | cons head _ => exact head.kind

end Cursor.Like

namespace Parser

variable {α α' β β' : Type}

/-- What two readers have read is as `R` says, or both have failed with errors that correspond. -/
inductive EndsLike (K : Correspondence) (R : α → α' → Prop) :
    EStateM.Result ParseError Cursor α → EStateM.Result ParseError Cursor α' → Prop
  | ok {a : α} {a' : α'} {d d' : Cursor} (result : R a a') (cursor : d.Like K d') :
    EndsLike K R (.ok a d) (.ok a' d')
  | error {e e' : ParseError} {d d' : Cursor} (error : e.Like K e')
    (names : K.names d.names d'.names) : EndsLike K R (.error e d) (.error e' d')

/-- At places that correspond, two readers do the same. -/
def Agree (K : Correspondence) (R : α → α' → Prop) (p : Parser α) (q : Parser α') : Prop :=
  ∀ c c', c.Like K c' → EndsLike K R (p c) (q c')

/-! ### Rules -/

theorem agree_pure {R : α → α' → Prop} {a : α} {a' : α'} (h : R a a') :
    Agree K R (pure a) (pure a') :=
  fun _ _ hc => .ok h hc

theorem agree_failAt {R : α → α' → Prop} (fault : ParseFault) {t t' : Token} (h : t.Like K t') :
    Agree K R (failAt fault t) (failAt fault t') :=
  fun _ _ hc => .error (h.error fault) hc.names

namespace Agree

variable {R : α → α' → Prop} {Q : β → β' → Prop} {x : Parser α} {x' : Parser α'}

theorem bind {g : α → Parser β} {g' : α' → Parser β'} (hx : Agree K R x x')
    (hg : ∀ a a', R a a' → Agree K Q (g a) (g' a')) : Agree K Q (x >>= g) (x' >>= g') := by
  intro c c' hc
  have h := hx c c' hc
  generalize hxc : x c = r, hxc' : x' c' = r' at h
  cases h with
  | ok result cursor =>
    rw [bind_of_ok hxc, bind_of_ok hxc']
    exact hg _ _ result _ _ cursor
  | error error names =>
    rw [bind_of_error hxc, bind_of_error hxc']
    exact .error error names

theorem mono {P : α → α' → Prop} (hx : Agree K R x x') (h : ∀ a a', R a a' → P a a') :
    Agree K P x x' := by
  intro c c' hc
  have hres := hx c c' hc
  generalize x c = r, x' c' = r' at hres ⊢
  cases hres with
  | ok result cursor => exact .ok (h _ _ result) cursor
  | error error names => exact .error error names

theorem map {f : α → β} {f' : α' → β'} (hx : Agree K R x x')
    (hf : ∀ a a', R a a' → Q (f a) (f' a')) : Agree K Q (f <$> x) (f' <$> x') := by
  rw [← bind_pure_comp, ← bind_pure_comp]
  exact hx.bind fun a a' h => agree_pure (hf a a' h)

/-- A choice that depends on what was read, and is made in the same way. -/
theorem ite {y : Parser α} {y' : Parser α'} {b : Prop} [Decidable b] (hx : Agree K R x x')
    (hy : Agree K R y y') : Agree K R (if b then x else y) (if b then x' else y') := by
  split
  · exact hx
  · exact hy

end Agree

/-- What a turn of a loop gives, if it gives something. -/
inductive MaybeLike (R : α → α' → Prop) : Option α → Option α' → Prop
  | none : MaybeLike R none none
  | some {a : α} {a' : α'} (h : R a a') : MaybeLike R (some a) (some a')

/-- An invariant of two loops. -/
theorem agree_iterate {R : α → α' → Prop} {step : α → Parser (Option α)}
    {step' : α' → Parser (Option α')}
    (hstep : ∀ a a', R a a' → Agree K (MaybeLike R) (step a) (step' a')) (n : Nat) {a : α}
    {a' : α'} (ha : R a a') : Agree K R (iterate step n a) (iterate step' n a') := by
  induction n generalizing a a' with
  | zero => exact agree_pure ha
  | succ n ih =>
    rw [iterate, iterate]
    refine (hstep a a' ha).bind fun r r' hr => ?_
    cases hr with
    | none => exact agree_pure ha
    | some h => exact ih h

/-! ### Basic readers -/

theorem agree_peek : Agree K (Token.Like K) peek peek := fun _ _ hc => .ok hc.current hc

theorem agree_peekKind : Agree K Eq peekKind peekKind := fun _ _ hc => .ok hc.current.kind hc

theorem agree_peekNextKind : Agree K Eq peekNextKind peekNextKind :=
  fun _ _ hc => .ok hc.nextKind hc

theorem agree_intern (text : String) : Agree K (fun _ _ => True) (intern text) (intern text) :=
  fun _ _ hc => .ok trivial { hc with names := K.insert text hc.names }

theorem agree_keepTarget {target target' : Expr} (h : target.Like K.marks target') :
    Agree K (fun _ _ => True) (keepTarget target) (keepTarget target') :=
  fun _ _ hc => .ok trivial { hc with targets := .cons h hc.targets }

theorem agree_advance : Agree K (Token.Like K) advance advance := by
  intro c c' hc
  have hcurrent := hc.current
  obtain ⟨rest, last, exprCount, stmtCount, targets, names⟩ := c
  obtain ⟨rest', last', exprCount', stmtCount', targets', names'⟩ := c'
  obtain ⟨hrest, hlast, hexprs, hstmts, htargets, hnames⟩ := hc
  cases hrest with
  | nil => exact .ok hcurrent ⟨.nil, hlast, hexprs, hstmts, htargets, hnames⟩
  | cons head tail =>
    dsimp only [advance]
    rw [← head.isEnd]
    split
    · exact .ok head ⟨.cons head tail, hlast, hexprs, hstmts, htargets, hnames⟩
    · exact .ok head ⟨tail, head.span, hexprs, hstmts, htargets, hnames⟩

theorem agree_spanFrom {start start' : Span} (h : K.spans start start') :
    Agree K K.spans (spanFrom start) (spanFrom start') :=
  fun _ _ hc => .ok (K.merge h hc.last) hc

theorem agree_newExpr {span span' : Span} (h : K.spans span span') :
    Agree K K.marks (newExpr span) (newExpr span') :=
  fun _ _ hc => .ok ⟨hc.exprCount, h⟩ { hc with exprCount := congrArg (· + 1) hc.exprCount }

theorem agree_newStmt {start start' : Span} (h : K.spans start start') :
    Agree K K.marks (newStmt start) (newStmt start') :=
  fun _ _ hc => .ok ⟨hc.stmtCount, K.merge h hc.last⟩
    { hc with stmtCount := congrArg (· + 1) hc.stmtCount }

theorem agree_accept (kind : Kind) : Agree K Eq (accept kind) (accept kind) := by
  refine agree_peekKind.bind ?_
  rintro k _ rfl
  exact .ite (agree_advance.bind fun _ _ _ => agree_pure rfl) (agree_pure rfl)

theorem agree_expect (kind : Kind) (what : Expected) :
    Agree K (Token.Like K) (expect kind what) (expect kind what) := by
  refine agree_peek.bind fun t t' ht => ?_
  rw [ht.kind]
  exact .ite agree_advance (agree_failAt _ ht)

theorem agree_identifier (what : Expected) : Agree K Eq (identifier what) (identifier what) := by
  refine (agree_expect _ _).bind fun t t' ht => ?_
  rw [ht.lexeme]
  exact (agree_intern _).bind fun _ _ _ => agree_pure rfl

/-! ### Lists -/

/-- The readers that are entered again do the same at places that correspond. -/
structure Entry.Agree (K : Correspondence) (g : Entry) : Prop where
  expression : Parser.Agree K (Expr.Like K.marks) g.expression g.expression
  unary : Parser.Agree K (Expr.Like K.marks) g.unary g.unary
  declaration : Parser.Agree K (Stmt.Like K.marks) g.declaration g.declaration

theorem agree_commaList {g : Entry} {R : α → α' → Prop} {item : List α → Parser α}
    {item' : List α' → Parser α'}
    (hitem : ∀ found found', List.Forall₂ R found found' → Agree K R (item found) (item' found')) :
    Agree K (List.Forall₂ R) (commaList g item) (commaList g item') := by
  refine (hitem [] [] .nil).bind fun a a' ha => ?_
  refine (agree_iterate (R := List.Forall₂ R) (fun found found' hfound => ?_) g.bound
    (.cons ha .nil)).bind fun found found' hfound => agree_pure (List.rel_reverse hfound)
  refine (agree_accept .comma).bind ?_
  rintro accepted _ rfl
  exact .ite ((hitem found found' hfound).bind fun a a' ha => agree_pure (.some (.cons ha hfound)))
    (agree_pure .none)

theorem agree_parameter {found found' : List String} (h : List.Forall₂ Eq found found') :
    Agree K Eq (parameter found) (parameter found') := by
  rw [List.forall₂_eq_eq_eq] at h
  subst h
  exact .ite (agree_peek.bind fun _ _ ht => agree_failAt _ ht) (agree_identifier _)

theorem agree_literal {t t' : Token} (ht : t.Like K t') (value : Literal) :
    Agree K (Expr.Like K.marks) (literal t value) (literal t' value) := by
  have text : Agree K (fun _ _ => True) (internText value) (internText value) := by
    unfold internText
    split
    · exact agree_intern _
    · exact agree_pure trivial
  refine text.bind fun _ _ _ => agree_advance.bind fun _ _ _ => ?_
  exact (agree_newExpr ht.span).bind fun m m' hm => agree_pure (.literal hm)

section Readers

variable {g : Entry} (hg : g.Agree K)

include hg

theorem agree_blockBody : Agree K (AllLike K.marks) (blockBody g) (blockBody g) := by
  refine (agree_iterate (R := List.Forall₂ (Stmt.Like K.marks)) (fun found found' hfound => ?_)
    g.bound .nil).bind fun found found' hfound => ?_
  · refine agree_peekKind.bind ?_
    rintro kind _ rfl
    exact .ite (agree_pure .none)
      (hg.declaration.bind fun s s' hs => agree_pure (.some (.cons hs hfound)))
  · exact (agree_expect _ _).bind fun _ _ _ =>
      agree_pure (allLike_iff.2 (List.rel_reverse hfound))

theorem agree_functionRest : Agree K (fun r r' => r.1 = r'.1 ∧ AllLike K.marks r.2 r'.2)
    (functionRest g) (functionRest g) := by
  refine (agree_expect _ _).bind fun _ _ _ => agree_peekKind.bind ?_
  rintro kind _ rfl
  rw [ite_bind]
  refine (Agree.ite (R := Eq) (agree_pure rfl) ?_).bind ?_
  · refine (agree_commaList fun _ _ => agree_parameter).mono fun params params' h => ?_
    rwa [List.forall₂_eq_eq_eq] at h
  · rintro params _ rfl
    refine (agree_expect _ _).bind fun _ _ _ => (agree_expect _ _).bind fun _ _ _ => ?_
    exact (agree_blockBody hg).bind fun body body' hbody => agree_pure ⟨rfl, hbody⟩

/-! ### Expressions -/

theorem agree_primary : Agree K (Expr.Like K.marks) (primary g) (primary g) := by
  refine agree_peek.bind fun t t' ht => ?_
  rw [← ht.kind, ← ht.literal?]
  split
  · refine (agree_identifier _).bind ?_
    rintro x _ rfl
    exact (agree_newExpr ht.span).bind fun m m' hm => agree_pure (.var hm)
  · refine agree_advance.bind fun _ _ _ => hg.expression.bind fun e e' he => ?_
    refine (agree_expect _ _).bind fun _ _ _ => (agree_spanFrom ht.span).bind fun _ _ hs => ?_
    exact (agree_newExpr hs).bind fun m m' hm => agree_pure (.group hm he)
  · refine agree_advance.bind fun _ _ _ => (agree_functionRest hg).bind ?_
    rintro ⟨params, body⟩ ⟨_, body'⟩ ⟨rfl, hbody⟩
    refine (agree_spanFrom ht.span).bind fun _ _ hs => ?_
    exact (agree_newExpr hs).bind fun m m' hm => agree_pure (.lambda hm hbody)
  · split
    · exact agree_literal ht _
    · exact agree_failAt _ ht

theorem agree_arguments : Agree K (EachLike K.marks) (arguments g) (arguments g) := by
  refine agree_peekKind.bind ?_
  rintro kind _ rfl
  rw [ite_bind]
  refine (Agree.ite (R := List.Forall₂ (Expr.Like K.marks)) (agree_pure .nil)
    (agree_commaList fun _ _ _ => hg.expression)).bind fun es es' hes => ?_
  exact (agree_expect _ _).bind fun _ _ _ => agree_pure (eachLike_iff.2 hes)

theorem agree_suffix {e e' : Expr} (he : e.Like K.marks e') :
    Agree K (MaybeLike (Expr.Like K.marks)) (suffix g e) (suffix g e') := by
  have node {f f' : Mark → Expr} (hf : ∀ m m', K.marks m m' → (f m).Like K.marks (f' m')) :
      Agree K (MaybeLike (Expr.Like K.marks))
        (do return some (f (← newExpr (← spanFrom e.span))))
        (do return some (f' (← newExpr (← spanFrom e'.span)))) :=
    (agree_spanFrom he.span).bind fun _ _ hs => (agree_newExpr hs).bind fun m m' hm =>
      agree_pure (.some (hf m m' hm))
  refine (agree_accept _).bind ?_
  rintro accepted _ rfl
  refine .ite ?_ ((agree_accept _).bind ?_)
  · exact (agree_arguments hg).bind fun args args' hargs => node fun m m' hm => .call hm he hargs
  · rintro accepted _ rfl
    refine .ite ((agree_identifier _).bind ?_) (agree_pure .none)
    rintro x _ rfl
    exact node fun m m' hm => .get hm he

theorem agree_call : Agree K (Expr.Like K.marks) (call g) (call g) :=
  (agree_primary hg).bind fun _ _ he =>
    agree_iterate (fun _ _ he => agree_suffix hg he) g.bound he

theorem agree_unary : Agree K (Expr.Like K.marks) (unary g) (unary g) := by
  refine agree_peekKind.bind ?_
  rintro kind _ rfl
  split
  · refine agree_advance.bind fun t t' ht => hg.unary.bind fun e e' he => ?_
    exact (agree_newExpr (K.merge ht.span he.span)).bind fun m m' hm => agree_pure (.unary hm he)
  · exact agree_call hg

omit hg

theorem agree_chainStep (level : Level) {operand : Parser Expr}
    (ho : Agree K (Expr.Like K.marks) operand operand) {left left' : Expr}
    (hl : left.Like K.marks left') :
    Agree K (MaybeLike (Expr.Like K.marks)) (chainStep level operand left)
      (chainStep level operand left') := by
  refine agree_peekKind.bind ?_
  rintro kind _ rfl
  split
  · next op _ =>
    refine agree_advance.bind fun _ _ _ => ho.bind fun right right' hr => ?_
    refine (agree_newExpr (K.merge hl.span hr.span)).bind fun m m' hm => agree_pure (.some ?_)
    cases op with
    | binary op => exact .binary hm hl hr
    | logical op => exact .logical hm hl hr
  · exact agree_pure .none

include hg

theorem agree_chain (levels : List Level) :
    Agree K (Expr.Like K.marks) (chain g levels) (chain g levels) := by
  induction levels with
  | nil => exact agree_unary hg
  | cons level levels ih =>
    exact ih.bind fun _ _ he => agree_iterate (fun _ _ he => agree_chainStep level ih he) g.bound he

omit hg

/-- Whether an expression is a target does not depend on its marks. -/
theorem agree_assign {equals equals' : Token} {target target' value value' : Expr}
    (he : equals.Like K equals') (ht : target.Like K.marks target')
    (hv : value.Like K.marks value') :
    Agree K (Expr.Like K.marks) (assign equals target value) (assign equals' target' value') := by
  have mark := agree_newExpr (K.merge ht.span hv.span)
  have kept := agree_keepTarget ht
  cases ht with
  | var => exact kept.bind fun _ _ _ => mark.bind fun m m' hm => agree_pure (.assign hm hv)
  | get _ ho => exact kept.bind fun _ _ _ => mark.bind fun m m' hm => agree_pure (.set hm ho hv)
  | _ => exact agree_failAt _ he

include hg

theorem agree_assignment : Agree K (Expr.Like K.marks) (assignment g) (assignment g) := by
  refine (agree_chain hg _).bind fun left left' hl => agree_peekKind.bind ?_
  rintro kind _ rfl
  refine .ite ?_ (agree_pure hl)
  refine agree_advance.bind fun equals equals' he => hg.expression.bind fun value value' hv => ?_
  exact agree_assign he hl hv

/-! ### Statements -/

theorem agree_operand? : Agree K (OptionLike K.marks) (operand? g) (operand? g) := by
  refine agree_peekKind.bind ?_
  rintro kind _ rfl
  exact .ite (agree_pure .none) (hg.expression.map fun e e' he => .some he)

section Statements

variable {start start' : Span} (hstart : K.spans start start')
include hstart

omit hg in
/-- The end of a statement: a semicolon, and the mark of its node. -/
theorem agree_endStmt {s s' : Mark → Stmt} (what : Expected)
    (hs : ∀ m m', K.marks m m' → (s m).Like K.marks (s' m')) :
    Agree K (Stmt.Like K.marks)
      (do
        let _ ← expect .semicolon what
        return s (← newStmt start))
      (do
        let _ ← expect .semicolon what
        return s' (← newStmt start')) :=
  (agree_expect _ _).bind fun _ _ _ => (agree_newStmt hstart).bind fun m m' hm =>
    agree_pure (hs m m' hm)

theorem agree_varDecl : Agree K (Stmt.Like K.marks) (varDecl g start) (varDecl g start') := by
  refine (agree_identifier _).bind ?_
  rintro x _ rfl
  refine (agree_accept _).bind ?_
  rintro accepted _ rfl
  rw [ite_bind, ite_bind]
  refine (Agree.ite (R := OptionLike K.marks) (hg.expression.map fun e e' he => .some he)
    (agree_pure .none)).bind fun e e' he => ?_
  exact agree_endStmt hstart _ fun m m' hm => .varDecl hm he

theorem agree_funDecl : Agree K (Stmt.Like K.marks) (funDecl g start) (funDecl g start') := by
  refine (agree_identifier _).bind ?_
  rintro x _ rfl
  refine (agree_functionRest hg).bind ?_
  rintro ⟨params, body⟩ ⟨_, body'⟩ ⟨rfl, hbody⟩
  exact (agree_newStmt hstart).bind fun m m' hm => agree_pure (.funDecl hm hbody)

omit hg in
theorem agree_classDecl : Agree K (Stmt.Like K.marks) (classDecl start) (classDecl start') := by
  refine (agree_identifier _).bind ?_
  rintro x _ rfl
  refine (agree_expect _ _).bind fun _ _ _ => (agree_expect _ _).bind fun _ _ _ => ?_
  exact (agree_newStmt hstart).bind fun m m' hm => agree_pure (.classDecl hm)

theorem agree_print : Agree K (Stmt.Like K.marks) (print g start) (print g start') :=
  hg.expression.bind fun _ _ he => agree_endStmt hstart _ fun _ _ hm => .print hm he

theorem agree_block : Agree K (Stmt.Like K.marks) (block g start) (block g start') :=
  (agree_blockBody hg).bind fun _ _ hbody => (agree_newStmt hstart).bind fun _ _ hm =>
    agree_pure (.block hm hbody)

theorem agree_ifElse : Agree K (Stmt.Like K.marks) (ifElse g start) (ifElse g start') := by
  refine (agree_expect _ _).bind fun _ _ _ => hg.expression.bind fun c c' hc => ?_
  refine (agree_expect _ _).bind fun _ _ _ => hg.declaration.bind fun t t' ht => ?_
  refine (agree_accept _).bind ?_
  rintro accepted _ rfl
  rw [ite_bind, ite_bind]
  refine (Agree.ite (R := ElseLike K.marks) (hg.declaration.map fun s s' hs => .some hs)
    (agree_pure .none)).bind fun e e' he => ?_
  exact (agree_newStmt hstart).bind fun m m' hm => agree_pure (.ifElse hm hc ht he)

theorem agree_whileDo : Agree K (Stmt.Like K.marks) (whileDo g start) (whileDo g start') := by
  refine (agree_expect _ _).bind fun _ _ _ => hg.expression.bind fun c c' hc => ?_
  refine (agree_expect _ _).bind fun _ _ _ => hg.declaration.bind fun b b' hb => ?_
  exact (agree_newStmt hstart).bind fun m m' hm => agree_pure (.whileDo hm hc hb)

theorem agree_returns : Agree K (Stmt.Like K.marks) (returns g start) (returns g start') :=
  (agree_operand? hg).bind fun _ _ he => agree_endStmt hstart _ fun _ _ hm => .returns hm he

theorem agree_breaks : Agree K (Stmt.Like K.marks) (breaks g start) (breaks g start') :=
  (agree_operand? hg).bind fun _ _ he => agree_endStmt hstart _ fun _ _ hm => .breaks hm he

theorem agree_expression :
    Agree K (Stmt.Like K.marks) (Parser.expression g start) (Parser.expression g start') :=
  (agree_assignment hg).bind fun _ _ he => agree_endStmt hstart _ fun _ _ hm => .expression hm he

theorem agree_afterWord? {kind next : Kind} {p : Span → Parser Stmt}
    (h : afterWord? g kind next = some p) : Agree K (Stmt.Like K.marks) (p start) (p start') := by
  unfold afterWord? at h
  split at h
  · cases h; exact agree_varDecl hg hstart
  · cases h; exact agree_classDecl hstart
  · split at h
    · cases h; exact agree_funDecl hg hstart
    · cases h
  · cases h; exact agree_print hg hstart
  · cases h; exact agree_block hg hstart
  · cases h; exact agree_ifElse hg hstart
  · cases h; exact agree_whileDo hg hstart
  · cases h; exact agree_returns hg hstart
  · cases h; exact agree_breaks hg hstart
  · cases h

end Statements

theorem agree_declaration : Agree K (Stmt.Like K.marks) (declaration g) (declaration g) := by
  refine agree_peek.bind fun t t' ht => agree_peekNextKind.bind ?_
  rintro next _ rfl
  rw [← ht.kind]
  split
  · next p hp => exact agree_advance.bind fun _ _ _ => agree_afterWord? hg ht.span hp
  · exact agree_expression hg ht.span

end Readers

/-! ### Programs -/

theorem entry_agree (n : Nat) : (entry n).Agree K := by
  induction n with
  | zero =>
    have stop {α : Type} {R : α → α → Prop} : Agree K R
        (do failAt (.expected .expression) (← peek)) (do failAt (.expected .expression) (← peek)) :=
      agree_peek.bind fun _ _ ht => agree_failAt _ ht
    exact ⟨stop, stop, stop⟩
  | succ n ih => exact ⟨agree_assignment ih, agree_unary ih, agree_declaration ih⟩

theorem program_agree : Agree K (AllLike K.marks) program program := by
  intro c c' hc
  rw [program, program, hc.rest.length_eq]
  refine Agree.bind (R := List.Forall₂ (Stmt.Like K.marks))
    (agree_iterate (fun found found' hfound => ?_) _ .nil)
    (fun found found' hfound => agree_pure (allLike_iff.2 (List.rel_reverse hfound))) c c' hc
  refine agree_peekKind.bind ?_
  rintro kind _ rfl
  exact .ite (agree_pure .none) ((agree_declaration (entry_agree _)).bind fun s s' hs =>
    agree_pure (.some (.cons hs hfound)))

end Parser

/-! ### Parsing -/

theorem Cursor.Like.ofTokens {names names' : NameTable} {tokens tokens' : List Token}
    (hstart : K.spans (.point 0) (.point 0)) (hnames : K.names names names')
    (h : List.Forall₂ (Token.Like K) tokens tokens') :
    (Cursor.ofTokens names tokens).Like K (.ofTokens names' tokens') := by
  refine ⟨h, ?_, rfl, rfl, .nil, hnames⟩
  cases h with
  | nil => exact hstart
  | cons head _ => exact head.span

/-- What parsing two token lists gives: programs that are the same but for their spans, or errors
that are the same but for their places. -/
inductive ParsedLike (K : Correspondence) :
    Except ParseError Program → Except ParseError Program → Prop
  | ok {p p' : Program} (statements : AllLike K.marks p.statements p'.statements)
    (exprCount : p.exprCount = p'.exprCount) (stmtCount : p.stmtCount = p'.stmtCount)
    (targets : List.Forall₂ (Expr.Like K.marks) p.targets p'.targets) :
    ParsedLike K (.ok p) (.ok p')
  | error {e e' : ParseError} (error : e.Like K e') : ParsedLike K (.error e) (.error e')

theorem parse_like {names names' : NameTable} {tokens tokens' : List Token}
    (hstart : K.spans (.point 0) (.point 0)) (hnames : K.names names names')
    (h : List.Forall₂ (Token.Like K) tokens tokens') :
    ParsedLike K (parse names tokens).1 (parse names' tokens').1 ∧
      K.names (parse names tokens).2 (parse names' tokens').2 := by
  have hends := Parser.program_agree _ _ (Cursor.Like.ofTokens hstart hnames h)
  rw [parse, parse]
  generalize Parser.program (.ofTokens names tokens) = r,
    Parser.program (.ofTokens names' tokens') = r' at hends ⊢
  cases hends with
  | ok result cursor =>
    exact ⟨.ok result cursor.exprCount cursor.stmtCount (List.rel_reverse cursor.targets),
      cursor.names⟩
  | error error names => exact ⟨.error error, names⟩

/-! ### One token list -/

/-- A sort of spans that contains the span around two of them and the point at the end of one. -/
class Spans (S : Span → Prop) : Prop where
  merge : ∀ s t, S s → S t → S (s.merge t)
  stop : ∀ s, S s → S (.point s.stop)

/-- The places of one token list, with two name tables that have nothing to do with each other. -/
def Correspondence.same (S : Span → Prop) [Spans S] : Correspondence where
  spans s t := s = t ∧ S s
  lines := Eq
  names _ _ := True
  merge := by
    rintro s _ t _ ⟨rfl, hs⟩ ⟨rfl, ht⟩
    exact ⟨rfl, Spans.merge s t hs ht⟩
  stop := by
    rintro s _ ⟨rfl, hs⟩
    exact ⟨rfl, Spans.stop s hs⟩
  firstLine := rfl
  insert _ _ := trivial

section Same

variable {S : Span → Prop} [Spans S]

theorem sameMarks_same : SameMarks (Correspondence.same S).marks := by
  rintro ⟨n, s⟩ ⟨n', s'⟩ ⟨hnumber, hspan, -⟩
  cases hnumber
  cases hspan
  rfl

theorem ParsedLike.eq {r r' : Except ParseError Program} (h : ParsedLike (.same S) r r') :
    r = r' := by
  cases h with
  | @ok p p' statements exprCount stmtCount targets =>
    obtain ⟨statements₁, exprCount₁, stmtCount₁, targets₁⟩ := p
    obtain ⟨statements₂, exprCount₂, stmtCount₂, targets₂⟩ := p'
    cases statements.eq sameMarks_same
    cases exprCount
    cases stmtCount
    cases (eachLike_iff.2 targets).eq sameMarks_same
    rfl
  | @error e e' error =>
    obtain ⟨fault₁, found₁, line₁, span₁⟩ := e
    obtain ⟨fault₂, found₂, line₂, span₂⟩ := e'
    cases error.fault
    cases error.found
    cases error.line
    cases error.span.1
    rfl

theorem parse_like_self (hstart : S (.point 0)) (names names' : NameTable) {tokens : List Token}
    (htokens : ∀ t ∈ tokens, S t.span) :
    ParsedLike (.same S) (parse names tokens).1 (parse names' tokens).1 := by
  refine (parse_like (K := .same S) ⟨rfl, hstart⟩ trivial (List.forall₂_same.2 ?_)).1
  exact fun t ht => ⟨rfl, rfl, rfl, rfl, rfl, htokens t ht⟩

end Same

/-- The program of a token list, and the error of one, do not depend on the name table. -/
theorem parse_names (names names' : NameTable) (tokens : List Token) :
    (parse names tokens).1 = (parse names' tokens).1 := by
  have : Spans fun _ => True := ⟨fun _ _ _ _ => trivial, fun _ _ => trivial⟩
  exact (parse_like_self (S := fun _ => True) trivial names names' fun _ _ => trivial).eq

/-- The nodes of a program have spans of the sort that its tokens have. -/
theorem parse_bound {S : Span → Prop} [Spans S] (hstart : S (.point 0)) {names : NameTable}
    {tokens : List Token} (htokens : ∀ t ∈ tokens, S t.span) {program : Program}
    (h : (parse names tokens).1 = .ok program) : ∀ n ∈ program.nodes, S n.span := by
  have hlike := parse_like_self hstart names names htokens
  rw [h] at hlike
  cases hlike with
  | ok statements =>
    intro n hn
    rw [n.span_eq]
    exact (List.forall₂_same.1 statements.nodes n hn).2.2

end Lox
