import Lox.Syntax.Parser

/-!
# The grammar of trees

The grammar as a property of trees and not of readers: which symbols a tree is written with, and
which trees can be written at all without parentheses other than their own.

* `Symbol`, `Token.symbol`: what the grammar sees of a token;
* `Expr.yield`, `Stmt.yield`: the symbols of a tree, from left to right;
* `StartsExpr`: how an expression starts;
* `Expr.rank`: how tightly an expression holds together;
* `Expr.grammatical`, `Stmt.grammatical`: every part is as tight as its place asks for, parameter
  lists are short enough, and no `else` could belong to an `if` further inside.
-/

namespace Lox

/-! ### Symbols -/

/-- What the grammar sees of a token: its kind, and the text of a name or the value of a
literal. -/
structure Symbol where
  kind : Kind
  content : Option Payload
  deriving DecidableEq

namespace Symbol

/-- A symbol that its kind determines. -/
def fixed (kind : Kind) : Symbol := ⟨kind, none⟩

/-- A name. -/
def name (text : String) : Symbol := ⟨.identifier, some (.str text)⟩

end Symbol

/-- What the grammar sees of a token. -/
def Token.symbol (t : Token) : Symbol :=
  match t.kind with
  | .identifier => .name t.lexeme
  | .integer | .float | .string => ⟨t.kind, t.payload⟩
  | kind => .fixed kind

/-- Whether the tokens of a kind are all the same symbol, and not the end marker. -/
def Kind.isMark : Kind → Bool
  | identifier | string | integer | float | endOfInput => false
  | _ => true

theorem Kind.ne_endOfInput_of_isMark {kind : Kind} (h : kind.isMark) : kind ≠ .endOfInput := by
  rintro rfl
  cases h

theorem Token.symbol_of_isMark {t : Token} (h : t.kind.isMark) : t.symbol = .fixed t.kind := by
  unfold Token.symbol
  split
  · next hk => simp [hk, Kind.isMark] at h
  · next hk => simp [hk, Kind.isMark] at h
  · next hk => simp [hk, Kind.isMark] at h
  · next hk => simp [hk, Kind.isMark] at h
  · rfl

@[simp] theorem Token.kind_symbol (t : Token) : t.symbol.kind = t.kind := by
  unfold Token.symbol
  split
  · next hk => exact hk.symm
  · rfl
  · rfl
  · rfl
  · rfl

/-- The symbol of a literal. -/
def Literal.symbol : Literal → Symbol
  | nil => .fixed .nilWord
  | bool true => .fixed .trueWord
  | bool false => .fixed .falseWord
  | int n => ⟨.integer, some (.int n)⟩
  | float x => ⟨.float, some (.float x)⟩
  | str s => ⟨.string, some (.str s)⟩

/-- The kind of the tokens that write an operator. -/
def UnaryOp.kind : UnaryOp → Kind
  | negate => .minus
  | not => .bang
  | complement => .tilde

/-- The kind of the tokens that write an operator. -/
def BinaryOp.kind : BinaryOp → Kind
  | add => .plus
  | sub => .minus
  | mul => .star
  | div => .slash
  | eq => .equalEqual
  | notEq => .bangEqual
  | less => .less
  | lessEq => .lessEqual
  | greater => .greater
  | greaterEq => .greaterEqual
  | bitAnd => .ampersand
  | bitOr => .pipe
  | bitXor => .caret
  | shiftLeft => .shiftLeft
  | shiftRight => .shiftRight

/-- The kind of the tokens that write an operator. -/
def LogicalOp.kind : LogicalOp → Kind
  | and => .andWord
  | or => .orWord

/-! ### Yields -/

/-- The first of several lists, and each further one after a comma. -/
def separated : List (List Symbol) → List Symbol
  | [] => []
  | x :: xs => x ++ xs.flatMap (.fixed .comma :: ·)

/-- The symbols of a parameter list and a body, from the opening parenthesis on. -/
def functionYield (params : List String) (body : List Symbol) : List Symbol :=
  .fixed .leftParen :: separated (params.map fun x => [.name x]) ++ .fixed .rightParen ::
    .fixed .leftBrace :: body ++ [.fixed .rightBrace]

mutual

/-- The symbols of an expression. -/
def Expr.yield : Expr → List Symbol
  | .literal _ v => [v.symbol]
  | .group _ e => .fixed .leftParen :: e.yield ++ [.fixed .rightParen]
  | .unary _ op e => .fixed op.kind :: e.yield
  | .binary _ l op r => l.yield ++ .fixed op.kind :: r.yield
  | .logical _ l op r => l.yield ++ .fixed op.kind :: r.yield
  | .var _ x => [.name x]
  | .assign _ x e => .name x :: .fixed .equal :: e.yield
  | .call _ f args => f.yield ++ .fixed .leftParen :: separated (yieldEach args) ++
      [.fixed .rightParen]
  | .lambda _ params body => .fixed .funWord :: functionYield params (yieldAll body)
  | .get _ e x => e.yield ++ [.fixed .dot, .name x]
  | .set _ e x v => e.yield ++ .fixed .dot :: .name x :: .fixed .equal :: v.yield

/-- The symbols of each of several expressions. -/
def yieldEach : List Expr → List (List Symbol)
  | [] => []
  | e :: es => e.yield :: yieldEach es

/-- The symbols of an operand that may be missing. -/
def yieldOption : Option Expr → List Symbol
  | none => []
  | some e => e.yield

/-- The symbols of an initial value that may be missing. -/
def yieldInitial : Option Expr → List Symbol
  | none => []
  | some e => .fixed .equal :: e.yield

/-- The symbols of a statement. -/
def Stmt.yield : Stmt → List Symbol
  | .expression _ e => e.yield ++ [.fixed .semicolon]
  | .print _ e => .fixed .printWord :: e.yield ++ [.fixed .semicolon]
  | .varDecl _ x e => .fixed .varWord :: .name x :: yieldInitial e ++ [.fixed .semicolon]
  | .block _ body => .fixed .leftBrace :: yieldAll body ++ [.fixed .rightBrace]
  | .ifElse _ c t e => .fixed .ifWord :: .fixed .leftParen :: c.yield ++ .fixed .rightParen ::
      t.yield ++ yieldElse e
  | .whileDo _ c b => .fixed .whileWord :: .fixed .leftParen :: c.yield ++ .fixed .rightParen ::
      b.yield
  | .funDecl _ x params body => .fixed .funWord :: .name x :: functionYield params (yieldAll body)
  | .returns _ e => .fixed .returnWord :: yieldOption e ++ [.fixed .semicolon]
  | .breaks _ e => .fixed .breakWord :: yieldOption e ++ [.fixed .semicolon]
  | .classDecl _ x => [.fixed .classWord, .name x, .fixed .leftBrace, .fixed .rightBrace]

/-- The symbols of an `else` branch that may be missing. -/
def yieldElse : Option Stmt → List Symbol
  | none => []
  | some s => .fixed .elseWord :: s.yield

/-- The symbols of statements one after the other. -/
def yieldAll : List Stmt → List Symbol
  | [] => []
  | s :: ss => s.yield ++ yieldAll ss

end

theorem separated_concat {xs : List (List Symbol)} (h : xs ≠ []) (x : List Symbol) :
    separated (xs ++ [x]) = separated xs ++ .fixed .comma :: x := by
  cases xs with
  | nil => exact absurd rfl h
  | cons y ys => simp [separated]

theorem yieldEach_eq_map (es : List Expr) : yieldEach es = es.map Expr.yield := by
  induction es with
  | nil => rfl
  | cons e es ih => rw [yieldEach, ih, List.map_cons]

theorem yieldAll_eq_flatMap (ss : List Stmt) : yieldAll ss = ss.flatMap Stmt.yield := by
  induction ss with
  | nil => rfl
  | cons s ss ih => rw [yieldAll, ih, List.flatMap_cons]

theorem yieldAll_append (ss ts : List Stmt) : yieldAll (ss ++ ts) = yieldAll ss ++ yieldAll ts := by
  induction ss with
  | nil => rfl
  | cons s ss ih => rw [List.cons_append, yieldAll, ih, yieldAll, List.append_assoc]

theorem yieldAll_reverse_cons (s : Stmt) (ss : List Stmt) :
    yieldAll (s :: ss).reverse = yieldAll ss.reverse ++ s.yield := by
  rw [List.reverse_cons, yieldAll_append, yieldAll, yieldAll, List.append_nil]

/-! ### First symbols -/

/-- Whether an expression may start with a token of a kind. -/
def Kind.startsExpr : Kind → Bool
  | identifier | string | integer | float | trueWord | falseWord | nilWord | leftParen | funWord
  | bang | minus | tilde => true
  | _ => false

/-- Symbols that start like an expression: a `fun` is followed by its parameter list. -/
def StartsExpr (ss : List Symbol) : Prop :=
  ∃ s rest, ss = s :: rest ∧ s.kind.startsExpr ∧
    (s.kind = .funWord → ∃ s' rest', rest = s' :: rest' ∧ s'.kind = .leftParen)

theorem StartsExpr.append {ss : List Symbol} (h : StartsExpr ss) (ts : List Symbol) :
    StartsExpr (ss ++ ts) := by
  obtain ⟨s, rest, rfl, hs, hfun⟩ := h
  refine ⟨s, rest ++ ts, rfl, hs, fun hk => ?_⟩
  obtain ⟨s', rest', rfl, hs'⟩ := hfun hk
  exact ⟨s', rest' ++ ts, rfl, hs'⟩

theorem startsExpr_cons {s : Symbol} (hs : s.kind.startsExpr) (hfun : s.kind ≠ .funWord)
    (ss : List Symbol) : StartsExpr (s :: ss) :=
  ⟨s, ss, rfl, hs, fun hk => absurd hk hfun⟩

/-- The first symbol of an expression is that of its leftmost part. -/
theorem Expr.startsExpr_yield : ∀ e : Expr, StartsExpr e.yield
  | .literal _ v => by
    rw [yield]
    rcases v with _ | b | _ | _ | _
    · exact startsExpr_cons rfl (by decide) _
    · cases b <;> exact startsExpr_cons rfl (by decide) _
    all_goals exact startsExpr_cons rfl (by simp [Literal.symbol]) _
  | .group _ e => by rw [yield]; exact startsExpr_cons rfl (by decide) _
  | .unary _ op e => by rw [yield]; cases op <;> exact startsExpr_cons rfl (by decide) _
  | .binary _ l op r => by rw [yield]; exact (startsExpr_yield l).append _
  | .logical _ l op r => by rw [yield]; exact (startsExpr_yield l).append _
  | .var _ x => by rw [yield]; exact startsExpr_cons rfl (by simp [Symbol.name]) _
  | .assign _ x e => by rw [yield]; exact startsExpr_cons rfl (by simp [Symbol.name]) _
  | .call _ f args => by
    rw [yield, List.append_assoc]
    exact (startsExpr_yield f).append _
  | .lambda _ params body => by
    rw [yield]
    exact ⟨_, _, rfl, rfl, fun _ => ⟨_, _, rfl, rfl⟩⟩
  | .get _ e x => by rw [yield]; exact (startsExpr_yield e).append _
  | .set _ e x v => by rw [yield]; exact (startsExpr_yield e).append _

/-- The first symbol of a statement neither ends what is around the statement nor goes on with
the statement before it. -/
theorem Stmt.yield_eq_cons (s : Stmt) : ∃ x xs, s.yield = x :: xs ∧ x.kind ≠ .rightBrace ∧
    x.kind ≠ .endOfInput ∧ x.kind ≠ .elseWord := by
  cases s with
  | expression m e =>
    obtain ⟨x, xs, hx, hstart, -⟩ := e.startsExpr_yield.append [.fixed .semicolon]
    refine ⟨x, xs, by rw [yield, hx], ?_, ?_, ?_⟩
    all_goals
      intro hk
      simp [hk, Kind.startsExpr] at hstart
  | _ => exact ⟨_, _, rfl, by decide, by decide, by decide⟩

/-! ### Ranks -/

/-- The rank of the expressions of a level: the tighter, the higher. -/
def Level.rank : Level → Nat
  | or => 1
  | and => 2
  | bitwise => 3
  | equality => 4
  | comparison => 5
  | term => 6
  | factor => 7

/-- The rank of expressions that start with a prefix operator. -/
def unaryRank : Nat := 8

/-- The rank of calls and properties. -/
def callRank : Nat := 9

/-- The rank of expressions without an open end. -/
def primaryRank : Nat := 10

theorem Level.rank_lt_unaryRank (level : Level) : level.rank < unaryRank := by
  cases level <;> decide

theorem Level.rank_pos (level : Level) : 0 < level.rank := by
  cases level <;> decide

theorem Level.rank_injective {a b : Level} (h : a.rank = b.rank) : a = b := by
  cases a <;> cases b <;> first | rfl | cases h

/-- The level of an operator. -/
def BinaryOp.level : BinaryOp → Level
  | bitAnd | bitOr | bitXor | shiftLeft | shiftRight => .bitwise
  | eq | notEq => .equality
  | less | lessEq | greater | greaterEq => .comparison
  | add | sub => .term
  | mul | div => .factor

/-- The level of an operator. -/
def LogicalOp.level : LogicalOp → Level
  | or => .or
  | and => .and

/-- How tightly an expression holds together; an assignment has the least rank. -/
def Expr.rank : Expr → Nat
  | assign _ _ _ | set _ _ _ _ => 0
  | logical _ _ op _ => op.level.rank
  | binary _ _ op _ => op.level.rank
  | unary _ _ _ => unaryRank
  | call _ _ _ | get _ _ _ => callRank
  | literal _ _ | group _ _ | var _ _ | lambda _ _ _ => primaryRank

/-! ### Grammatical trees -/

/-- Whether a statement ends in an `if` without an `else`, so that an `else` after it would belong
to that `if`. -/
def Stmt.endsOpen : Stmt → Bool
  | .ifElse _ _ _ none => true
  | .ifElse _ _ _ (some e) => e.endsOpen
  | .whileDo _ _ b => b.endsOpen
  | _ => false

mutual

/-- Whether an expression is one of the grammar: an operand of a chain is at the level of the chain
or tighter, and a right operand is tighter; what follows a prefix operator starts with one or is a
call; what is called, or has a property, is at the level of calls; and assignments stand only
where any expression may stand. -/
def Expr.grammatical : Expr → Bool
  | .literal _ _ | .var _ _ => true
  | .group _ e => e.grammatical
  | .unary _ _ e => e.grammatical && unaryRank ≤ e.rank
  | .binary _ l op r => l.grammatical && r.grammatical && op.level.rank ≤ l.rank &&
      op.level.rank < r.rank
  | .logical _ l op r => l.grammatical && r.grammatical && op.level.rank ≤ l.rank &&
      op.level.rank < r.rank
  | .assign _ _ e => e.grammatical
  | .call _ f args => f.grammatical && callRank ≤ f.rank && grammaticalEach args
  | .lambda _ params body => params.length ≤ maxParameters && grammaticalAll body
  | .get _ e _ => e.grammatical && callRank ≤ e.rank
  | .set _ e _ v => e.grammatical && callRank ≤ e.rank && v.grammatical

/-- Whether all of several expressions are of the grammar. -/
def grammaticalEach : List Expr → Bool
  | [] => true
  | e :: es => e.grammatical && grammaticalEach es

/-- Whether an expression that may be missing is one of the grammar. -/
def grammaticalOption : Option Expr → Bool
  | none => true
  | some e => e.grammatical

/-- Whether a statement is one of the grammar. -/
def Stmt.grammatical : Stmt → Bool
  | .expression _ e | .print _ e => e.grammatical
  | .varDecl _ _ e | .returns _ e | .breaks _ e => grammaticalOption e
  | .block _ body => grammaticalAll body
  | .ifElse _ c t e => c.grammatical && t.grammatical && grammaticalElse e &&
      !(e.isSome && t.endsOpen)
  | .whileDo _ c b => c.grammatical && b.grammatical
  | .funDecl _ _ params body => params.length ≤ maxParameters && grammaticalAll body
  | .classDecl _ _ => true

/-- Whether a branch that may be missing is one of the grammar. -/
def grammaticalElse : Option Stmt → Bool
  | none => true
  | some s => s.grammatical

/-- Whether all of several statements are of the grammar. -/
def grammaticalAll : List Stmt → Bool
  | [] => true
  | s :: ss => s.grammatical && grammaticalAll ss

end

theorem grammaticalEach_iff {es : List Expr} :
    grammaticalEach es ↔ ∀ e ∈ es, e.grammatical := by
  induction es with
  | nil => simp [grammaticalEach]
  | cons e es ih => simp [grammaticalEach, ih]

theorem grammaticalAll_iff {ss : List Stmt} :
    grammaticalAll ss ↔ ∀ s ∈ ss, s.grammatical := by
  induction ss with
  | nil => simp [grammaticalAll]
  | cons s ss ih => simp [grammaticalAll, ih]

/-! ### Operators and levels -/

/-- The kind of the tokens that write an operator. -/
def Operator.kind : Operator → Kind
  | binary op => op.kind
  | logical op => op.kind

/-- The level of an operator. -/
def Operator.level : Operator → Level
  | binary op => op.level
  | logical op => op.level

@[simp] theorem Operator.yield_node (op : Operator) (m : Mark) (l r : Expr) :
    (op.node m l r).yield = l.yield ++ .fixed op.kind :: r.yield := by
  cases op <;> rfl

@[simp] theorem Operator.rank_node (op : Operator) (m : Mark) (l r : Expr) :
    (op.node m l r).rank = op.level.rank := by
  cases op <;> rfl

@[simp] theorem Operator.grammatical_node (op : Operator) (m : Mark) (l r : Expr) :
    (op.node m l r).grammatical = (l.grammatical && r.grammatical &&
      decide (op.level.rank ≤ l.rank) && decide (op.level.rank < r.rank)) := by
  cases op <;> rfl

/-- Only nodes of operators of a level have its rank. -/
theorem Expr.eq_node_of_rank_eq {e : Expr} {level : Level} (h : e.rank = level.rank) :
    ∃ m l op r, e = Operator.node op m l r ∧ op.level = level := by
  have hpos := level.rank_pos
  have hlt := level.rank_lt_unaryRank
  cases e with
  | binary m l op r => exact ⟨m, l, .binary op, r, rfl, Level.rank_injective h⟩
  | logical m l op r => exact ⟨m, l, .logical op, r, rfl, Level.rank_injective h⟩
  | _ =>
    simp only [rank, unaryRank, callRank, primaryRank] at h hlt
    omega

theorem Operator.isMark_kind (op : Operator) : op.kind.isMark := by
  rcases op with op | op <;> cases op <;> rfl

theorem Level.operator?_eq_some {level : Level} {k : Kind} {op : Operator}
    (h : level.operator? k = some op) : op.kind = k ∧ op.level = level := by
  unfold Level.operator? at h
  split at h <;> cases h <;> exact ⟨rfl, rfl⟩

theorem UnaryOp.ofKind?_eq_some {k : Kind} {op : UnaryOp} (h : ofKind? k = some op) :
    op.kind = k := by
  unfold ofKind? at h
  split at h <;> cases h <;> rfl

/-- The least rank of what the readers of these levels accept. -/
def chainRank (levels : List Level) : Nat := unaryRank - levels.length

theorem chainRank_of_suffix {level : Level} {levels : List Level}
    (h : level :: levels <:+ Level.all) :
    chainRank (level :: levels) = level.rank ∧ chainRank levels = level.rank + 1 := by
  simp only [Level.all, List.suffix_cons_iff, List.cons.injEq, List.suffix_nil,
    reduceCtorEq, or_false] at h
  rcases h with ⟨rfl, rfl⟩ | ⟨rfl, rfl⟩ | ⟨rfl, rfl⟩ | ⟨rfl, rfl⟩ | ⟨rfl, rfl⟩ | ⟨rfl, rfl⟩ |
    ⟨rfl, rfl⟩ <;> decide

end Lox
