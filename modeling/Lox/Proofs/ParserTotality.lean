import Lox.Proofs.Lookahead
import Lox.Proofs.ParserSoundness

/-!
# The parser comes to an end

The readers of the grammar call each other without an end in sight, and their loops have none
either. But a reader is entered again only after a token has been consumed, and no end marker ever
is. So with `m` tokens before the first end marker, readers are nested at most `m` deep, and it does
not matter what readers further down would do.

* `Entry.Unfolds`: readers that follow the grammar for some levels, and do anything below them;
* `Entry.Same`: readers that do the same before fewer than `n` tokens, with one lemma for each
  reader of the grammar;
* `Entry.Unfolds.same`: readers that follow the grammar for `n` levels do;
* `parse_total`.
-/

namespace Lox

namespace Parser

/-- Readers that follow the grammar for `n` levels, with loops that take at least `n` turns. Below
these levels they may do anything. -/
inductive Entry.Unfolds : Nat → Entry → Prop
  | bottom {g : Entry} : Unfolds 0 g
  | level {n bound : Nat} {g : Entry} (h : Unfolds n g) (hbound : n < bound) :
      Unfolds (n + 1) ⟨bound, assignment g, Parser.unary g, Parser.declaration g⟩

theorem entry_succ (n : Nat) :
    entry (n + 1) = ⟨n + 1, assignment (entry n), unary (entry n), declaration (entry n)⟩ := by
  rw [entry, expressionAt, unaryAt, declarationAt, entry]

theorem entry_unfolds (n : Nat) : (entry n).Unfolds n := by
  induction n with
  | zero => exact .bottom
  | succ n ih =>
    rw [entry_succ]
    exact .level ih (Nat.lt_succ_self n)

/-- Readers that follow the grammar for some levels do so for fewer. -/
theorem Entry.Unfolds.mono {m n : Nat} {g : Entry} (h : g.Unfolds n) (hm : m ≤ n) :
    g.Unfolds m := by
  induction h generalizing m with
  | bottom =>
    obtain rfl := Nat.le_zero.1 hm
    exact .bottom
  | level _ hbound ih =>
    cases m with
    | zero => exact .bottom
    | succ m => exact .level (ih (by omega)) (by omega)

/-- The declarations of a program, with certain readers. -/
def programOver (g : Entry) : Parser (List Stmt) := do
  let statements ← iterate (fun found => do
    if (← peekKind) == .endOfInput then return none
    else return some ((← declaration g) :: found)) g.bound []
  return statements.reverse

/-- A declaration, when its first token and the kind of the second are known. -/
def declarationFrom (g : Entry) (t : Token) (next : Kind) : Parser Stmt :=
  match afterWord? g t.kind next with
  | some rest => do
    let _ ← advance
    rest t.span
  | none => expression g t.span

open Fork

variable {F : Fork} {α : Type} {m n : Nat} {g g' : Entry}

/-- Before fewer than `n` tokens, the readers that are entered again do the same and consume a
token. Before at most `n` tokens, all loops over them may come to their end. -/
structure Entry.Same (F : Fork) (n : Nat) (g g' : Entry) : Prop where
  bound : n ≤ g.bound
  bound' : n ≤ g'.bound
  expression : ∀ k < n, F.Same k (Below k) g.expression g'.expression
  unary : ∀ k < n, F.Same k (Below k) g.unary g'.unary
  declaration : ∀ k < n, F.Same k (Below k) g.declaration g'.declaration

section Readers

variable (hg : g.Same F n g')

include hg

/-! ### Lists -/

theorem same_commaList {item item' : List α → Parser α}
    (hitem : ∀ found, ∀ k < n, F.Same k (Below k) (item found) (item' found)) (hm : m < n) :
    F.Same m (Below m) (commaList g item) (commaList g' item') := by
  obtain ⟨hbound, hbound', -, -, -⟩ := hg
  refine (hitem [] m hm).bind fun a k hk => ?_
  refine (same_iterate (n := m) (fun found j hj => ?_) (by omega) (by omega) (by omega)).bind
    fun found j hj => same_pure (Nat.lt_of_le_of_lt hj hk)
  refine (same_accept .comma nofun).bind fun accepted i hi => ?_
  cases accepted with
  | false => exact same_pure (R := Turn j) hi.1
  | true =>
    have hi : i < j := hi.2 rfl
    exact (hitem found i (by omega)).bind fun b l hl => same_some (by omega)

theorem same_blockBody (hm : m < n) : F.Same m (Below m) (blockBody g) (blockBody g') := by
  obtain ⟨hbound, hbound', -, -, hdecl⟩ := hg
  refine (same_iterate (n := m) (fun found k hk c c' hc => ?_) (Nat.le_refl m) (by omega)
    (by omega)).bind fun found k hk => ?_
  · refine hc.peekKind_bind (.ite (same_none _ _ hc) (Same.bind (hdecl k (by omega)) ?_ _ _ hc))
    exact fun s j hj => same_some hj
  · exact (same_expect .rightBrace nofun).bind fun _ j hj =>
      same_pure (Nat.lt_of_lt_of_le hj hk)

omit hg in
theorem same_parameter (found : List String) : F.Same m (Below m) (parameter found)
    (parameter found) := by
  intro c c' hc
  exact .ite (hc.peek_bind (same_failAt hc.ahead _ _ hc)) (same_identifier _ _ hc)

theorem same_functionRest (hm : m ≤ n) :
    F.Same m (Below m) (functionRest g) (functionRest g') := by
  refine (same_expect .leftParen nofun).bind fun _ k hk c c' hc => hc.peekKind_bind ?_
  rw [ite_bind, ite_bind]
  refine Runs.bind (R := Within k) (.ite (same_pure (R := Within k) (Nat.le_refl k) _ _ hc)
    ((same_commaList hg (fun found _ _ => same_parameter found) (by omega)).mono
      (fun _ _ h => Nat.le_of_lt h) _ _ hc)) fun params j hj => ?_
  refine (same_expect .rightParen nofun).bind fun _ i hi => ?_
  refine (same_expect .leftBrace nofun).bind fun _ l hl => ?_
  exact (same_blockBody hg (by omega)).bind fun body r hr => same_pure (by omega)

/-! ### Expressions -/

omit hg in
/-- A literal is written with a token before the marker. -/
theorem same_literal {t : Token} {value : Literal} (hm : 0 < m) :
    F.Same m (Below m) (literal t value) (literal t value) := by
  have htext : F.Same m (Stays m) (internText value) (internText value) := by
    unfold internText
    split
    · exact same_intern
    · exact same_pure rfl
  refine htext.bind fun _ k hk => (same_advance (by omega)).bind fun _ j hj => ?_
  exact same_newExpr.bind fun _ i hi => same_pure (by omega)

theorem same_primary (hm : m ≤ n) : F.Same m (Below m) (primary g) (primary g') := by
  intro c c' hc
  have hpos := hc.pos
  have hahead := hc.ahead
  refine hc.peek_bind ?_
  generalize c.current = t at hpos hahead ⊢
  split
  · exact (same_identifier _ _ hc).bind fun x k hk =>
      same_newExpr.bind fun _ j hj => same_pure (by omega)
  · next hkind =>
    refine (same_advance (hpos (by simp [hkind])) _ _ hc).bind fun _ k hk => ?_
    refine (hg.expression k (by omega)).bind fun e j hj => ?_
    refine (same_expect .rightParen nofun).bind fun _ i hi => ?_
    exact same_spanFrom.bind fun _ l hl => same_newExpr.bind fun _ r hr => same_pure (by omega)
  · next hkind =>
    refine (same_advance (hpos (by simp [hkind])) _ _ hc).bind fun _ k hk => ?_
    refine (same_functionRest hg (by omega)).bind fun rest j hj => ?_
    exact same_spanFrom.bind fun _ l hl => same_newExpr.bind fun _ r hr => same_pure (by omega)
  · split
    · next value hvalue =>
      exact same_literal (hpos (literal?_eq_some hvalue).2) _ _ hc
    · exact same_failAt hahead _ _ hc

theorem same_arguments (hm : m < n) : F.Same m (Below m) (arguments g) (arguments g') := by
  intro c c' hc
  refine hc.peekKind_bind ?_
  rw [ite_bind, ite_bind]
  refine Runs.bind (R := Within m) (.ite (same_pure (R := Within m) (Nat.le_refl m) _ _ hc)
    ((same_commaList hg (fun _ => hg.expression) hm).mono (fun _ _ h => Nat.le_of_lt h) _ _ hc))
      fun args k hk => ?_
  exact (same_expect .rightParen nofun).bind fun _ j hj => same_pure (by omega)

theorem same_suffix (hm : m < n) (e : Expr) :
    F.Same m (Turn m) (suffix g e) (suffix g' e) := by
  have node {k : Nat} (hk : k < m) (f : Mark → Expr) :
      F.Same k (Turn m) (do return some (f (← newExpr (← spanFrom e.span))))
        (do return some (f (← newExpr (← spanFrom e.span)))) :=
    same_spanFrom.bind fun _ j hj => same_newExpr.bind fun _ i hi => same_some (by omega)
  refine (same_accept .leftParen nofun).bind fun called k hk => ?_
  cases called with
  | true =>
    have hk : k < m := hk.2 rfl
    exact (same_arguments hg (by omega)).bind fun args j hj => node (by omega) _
  | false =>
    refine (same_accept .dot nofun).bind fun dotted j hj => ?_
    cases dotted with
    | true =>
      have hj : j < k := hj.2 rfl
      exact same_identifier.bind fun name i hi => node (by omega) _
    | false => exact same_pure (R := Turn m) (Nat.le_trans hj.1 hk.1)

theorem same_call (hm : m ≤ n) : F.Same m (Below m) (call g) (call g') := by
  have hbound := hg.bound
  have hbound' := hg.bound'
  refine (same_primary hg hm).bind fun e k hk => ?_
  exact (same_iterate (fun e j hj => same_suffix hg (by omega) e) (Nat.le_refl k) (by omega)
    (by omega)).mono fun _ j hj => by omega

theorem same_unary (hm : m ≤ n) : F.Same m (Below m) (unary g) (unary g') := by
  intro c c' hc
  have hpos := hc.pos
  refine hc.peekKind_bind ?_
  generalize c.current.kind = kind at hpos ⊢
  split
  · next op hop =>
    have hm : 0 < m := hpos (by rintro rfl; cases hop)
    refine (same_advance hm _ _ hc).bind fun t k hk => ?_
    refine (hg.unary k (by omega)).bind fun e j hj => ?_
    exact same_newExpr.bind fun _ i hi => same_pure (by omega)
  · exact same_call hg hm _ _ hc

omit hg in
theorem same_chainStep {level : Level} {operand operand' : Parser Expr}
    (ho : ∀ k < m, F.Same k (Below k) operand operand') (left : Expr) :
    F.Same m (Turn m) (chainStep level operand left) (chainStep level operand' left) := by
  intro c c' hc
  have hpos := hc.pos
  refine hc.peekKind_bind ?_
  generalize c.current.kind = kind at hpos ⊢
  split
  · next op hop =>
    have hm : 0 < m := hpos (by rintro rfl; cases level <;> cases hop)
    refine (same_advance hm _ _ hc).bind fun t k hk => ?_
    refine (ho k (by omega)).bind fun e j hj => ?_
    exact same_newExpr.bind fun _ i hi => same_some (by omega)
  · exact same_none _ _ hc

theorem same_chain (levels : List Level) (hm : m ≤ n) :
    F.Same m (Below m) (chain g levels) (chain g' levels) := by
  have hbound := hg.bound
  have hbound' := hg.bound'
  induction levels generalizing m with
  | nil => exact same_unary hg hm
  | cons level levels ih =>
    refine (ih hm).bind fun e k hk => ?_
    exact (same_iterate (fun e j hj => same_chainStep (fun i hi => ih (by omega)) e)
      (Nat.le_refl k) (by omega) (by omega)).mono fun _ j hj => by omega

omit hg in
theorem same_assign {equals : Token} (hequals : F.Ahead equals) (target value : Expr) :
    F.Same m (Stays m) (assign equals target value) (assign equals target value) := by
  unfold assign
  dsimp only
  split
  · exact same_keepTarget.bind fun _ k hk => same_newExpr.bind fun _ j hj => same_pure (by omega)
  · exact same_keepTarget.bind fun _ k hk => same_newExpr.bind fun _ j hj => same_pure (by omega)
  · exact same_failAt hequals

theorem same_assignment (hm : m ≤ n) :
    F.Same m (Below m) (assignment g) (assignment g') := by
  refine (same_chain hg _ hm).bind fun left k hk c c' hc => hc.peekKind_bind ?_
  split
  · next hkind =>
    have hpos : 0 < k := hc.pos (by simp_all)
    refine (same_advance_ahead hpos _ _ hc).bind fun equals j ⟨hequals, hj⟩ => ?_
    refine (hg.expression j (by omega)).bind fun value i hi => ?_
    exact (same_assign hequals _ _).mono fun _ l hl => by omega
  · exact same_pure (R := Below m) hk _ _ hc

/-! ### Statements -/

theorem same_operand? (hm : m < n) : F.Same m (Within m) (operand? g) (operand? g') := by
  intro c c' hc
  refine hc.peekKind_bind (.ite (same_pure (R := Within m) (Nat.le_refl m) _ _ hc) ?_)
  exact (Same.map (Q := Within m) (hg.expression m hm) fun _ _ => Nat.le_of_lt) _ _ hc

section Statements

variable {start : Span}

omit hg in
/-- The end of a statement: a semicolon, and the mark of its node. -/
theorem same_endStmt {k : Nat} (hk : k ≤ m) (what : Expected) (f : Mark → Stmt) :
    F.Same k (Below m)
      (do
        let _ ← expect .semicolon what
        return f (← newStmt start))
      (do
        let _ ← expect .semicolon what
        return f (← newStmt start)) :=
  (same_expect .semicolon nofun).bind fun _ j hj => same_newStmt.bind fun _ i hi =>
    same_pure (by omega)

theorem same_varDecl (hm : m < n) :
    F.Same m (Below m) (varDecl g start) (varDecl g' start) := by
  refine same_identifier.bind fun name k hk => ?_
  refine (same_accept .equal nofun).bind fun given j hj => ?_
  rw [ite_bind, ite_bind]
  cases given with
  | true =>
    have hj : j < k := hj.2 rfl
    refine Same.bind (R := Below m) ((hg.expression j (by omega)).map fun _ i hi => ?_)
      fun value i hi => same_endStmt (Nat.le_of_lt hi) _ _
    omega
  | false =>
    refine Same.bind (R := Below m) (same_pure ?_) fun value i hi =>
      same_endStmt (Nat.le_of_lt hi) _ _
    have := hj.1
    omega

theorem same_funDecl (hm : m < n) :
    F.Same m (Below m) (funDecl g start) (funDecl g' start) := by
  refine same_identifier.bind fun name k hk => ?_
  refine (same_functionRest hg (by omega)).bind fun rest j hj => ?_
  exact same_newStmt.bind fun _ i hi => same_pure (by omega)

omit hg in
theorem same_classDecl : F.Same m (Below m) (classDecl start) (classDecl start) := by
  refine same_identifier.bind fun name k hk => ?_
  refine (same_expect .leftBrace nofun).bind fun _ j hj => ?_
  refine (same_expect .rightBrace nofun).bind fun _ i hi => ?_
  exact same_newStmt.bind fun _ l hl => same_pure (by omega)

theorem same_print (hm : m < n) : F.Same m (Below m) (print g start) (print g' start) :=
  (hg.expression m hm).bind fun _ _ hk => same_endStmt (Nat.le_of_lt hk) _ _

theorem same_block (hm : m < n) : F.Same m (Below m) (block g start) (block g' start) :=
  (same_blockBody hg hm).bind fun _ _ hk => same_newStmt.bind fun _ _ hj =>
    same_pure (by omega)

theorem same_ifElse (hm : m < n) : F.Same m (Below m) (ifElse g start) (ifElse g' start) := by
  refine (same_expect .leftParen nofun).bind fun _ k hk => ?_
  refine (hg.expression k (by omega)).bind fun condition j hj => ?_
  refine (same_expect .rightParen nofun).bind fun _ i hi => ?_
  refine (hg.declaration i (by omega)).bind fun thenBranch l hl => ?_
  refine (same_accept .elseWord nofun).bind fun more r hr => ?_
  rw [ite_bind, ite_bind]
  have node (branch : Option Stmt) {r : Nat} (hr : r < m) :
      F.Same r (Below m) (do return Stmt.ifElse (← newStmt start) condition thenBranch branch)
        (do return Stmt.ifElse (← newStmt start) condition thenBranch branch) :=
    same_newStmt.bind fun _ q hq => same_pure (by omega)
  cases more with
  | true =>
    refine Same.bind (R := Below m) ((hg.declaration r (by omega)).map fun _ q hq => ?_)
      fun branch q hq => node branch hq
    omega
  | false =>
    refine Same.bind (R := Below m) (same_pure ?_) fun branch q hq => node branch hq
    omega

theorem same_whileDo (hm : m < n) :
    F.Same m (Below m) (whileDo g start) (whileDo g' start) := by
  refine (same_expect .leftParen nofun).bind fun _ k hk => ?_
  refine (hg.expression k (by omega)).bind fun condition j hj => ?_
  refine (same_expect .rightParen nofun).bind fun _ i hi => ?_
  refine (hg.declaration i (by omega)).bind fun body l hl => ?_
  exact same_newStmt.bind fun _ r hr => same_pure (by omega)

theorem same_returns (hm : m < n) :
    F.Same m (Below m) (returns g start) (returns g' start) :=
  (same_operand? hg hm).bind fun _ _ hk => same_endStmt hk _ _

theorem same_breaks (hm : m < n) : F.Same m (Below m) (breaks g start) (breaks g' start) :=
  (same_operand? hg hm).bind fun _ _ hk => same_endStmt hk _ _

theorem same_expression (hm : m ≤ n) :
    F.Same m (Below m) (Parser.expression g start) (Parser.expression g' start) :=
  (same_assignment hg hm).bind fun _ _ hk => same_endStmt (Nat.le_of_lt hk) _ _

/-- What a first word selects: readers that do the same, or none. No end marker is such a word. -/
inductive SameAfter (F : Fork) (n : Nat) (kind : Kind) :
    Option (Span → Parser Stmt) → Option (Span → Parser Stmt) → Prop
  | none : SameAfter F n kind none none
  | some {p p' : Span → Parser Stmt} (hkind : kind ≠ .endOfInput)
      (h : ∀ m < n, ∀ start, F.Same m (Below m) (p start) (p' start)) :
      SameAfter F n kind (some p) (some p')

theorem same_afterWord? (kind next : Kind) :
    SameAfter F n kind (afterWord? g kind next) (afterWord? g' kind next) := by
  cases kind with
  | varWord => exact .some nofun fun m hm _ => same_varDecl hg hm
  | classWord => exact .some nofun fun m hm _ => same_classDecl
  | funWord =>
    rw [afterWord?, afterWord?]
    split
    · exact .some nofun fun m hm _ => same_funDecl hg hm
    · exact .none
  | printWord => exact .some nofun fun m hm _ => same_print hg hm
  | leftBrace => exact .some nofun fun m hm _ => same_block hg hm
  | ifWord => exact .some nofun fun m hm _ => same_ifElse hg hm
  | whileWord => exact .some nofun fun m hm _ => same_whileDo hg hm
  | returnWord => exact .some nofun fun m hm _ => same_returns hg hm
  | breakWord => exact .some nofun fun m hm _ => same_breaks hg hm
  | _ => exact .none

end Statements

omit hg in
theorem declarationFrom_congr {t : Token} {next next' : Kind}
    (h : afterWord? g t.kind next = afterWord? g t.kind next') :
    declarationFrom g t next = declarationFrom g t next' := by
  rw [declarationFrom, declarationFrom, h]

omit hg in
/-- The kind of the second token is looked at only after `fun`. -/
theorem declaration_eq (g : Entry) : declaration g = (do
    let t ← peek
    if t.kind = .funWord then declarationFrom g t (← peekNextKind)
    else declarationFrom g t .endOfInput) := by
  funext c
  have hfrom : declaration g c = declarationFrom g c.current c.nextKind c := rfl
  rw [hfrom, peek_bind]
  split
  · rfl
  · next hkind =>
    refine congrFun (declarationFrom_congr ?_) c
    unfold afterWord?
    split <;> first | rfl | exact absurd ‹_› hkind

theorem same_declaration (hm : m ≤ n) :
    F.Same m (Below m) (declaration g) (declaration g') := by
  intro c c' hc
  have hpos := hc.pos
  rw [declaration_eq, declaration_eq]
  refine hc.peek_bind ?_
  generalize c.current = t at hpos ⊢
  have rest (next : Kind) :
      F.Runs (Below m) (declarationFrom g t next) (declarationFrom g' t next) c c' := by
    have hword := same_afterWord? hg t.kind next
    rw [declarationFrom, declarationFrom]
    generalize afterWord? g t.kind next = p, afterWord? g' t.kind next = p' at hword ⊢
    cases hword with
    | none => exact same_expression hg hm _ _ hc
    | some hkind h =>
      refine (same_advance (hpos hkind) _ _ hc).bind fun _ k hk => ?_
      exact (h k (by omega) _).mono fun _ j hj => by omega
  split
  · next hkind => exact hc.peekNextKind_bind (hpos (by simp [hkind])) (rest _)
  · exact rest _

/-! ### Programs -/

theorem same_programOver (hm : m < n) :
    F.Same m (Within m) (programOver g) (programOver g') := by
  have hbound := hg.bound
  have hbound' := hg.bound'
  refine (same_iterate (n := m) (fun found k hk c c' hc => ?_) (Nat.le_refl m) (by omega)
    (by omega)).bind fun found k hk => same_pure hk
  refine hc.peekKind_bind (.ite (same_none _ _ hc) (Same.bind (same_declaration hg (by omega)) ?_
    _ _ hc))
  exact fun s j hj => same_some hj

end Readers

/-- Readers that follow the grammar for `n` levels do the same before fewer than `n` tokens. -/
theorem Entry.Unfolds.same (h : g.Unfolds n) (h' : g'.Unfolds n) : g.Same F n g' := by
  induction n generalizing g g' with
  | zero => exact ⟨Nat.zero_le _, Nat.zero_le _, nofun, nofun, nofun⟩
  | succ n ih =>
    cases h with
    | level h hbound =>
      cases h' with
      | level h' hbound' =>
        have hg := ih h h'
        exact ⟨hbound, hbound', fun k hk => same_assignment hg (Nat.le_of_lt_succ hk),
          fun k hk => same_unary hg (Nat.le_of_lt_succ hk),
          fun k hk => same_declaration hg (Nat.le_of_lt_succ hk)⟩

end Parser

/-! ### Token lists -/

/-- How many tokens are before the first end marker. -/
def firstEnd (tokens : List Token) : Nat := tokens.findIdx Token.isEnd

/-- A list with an end marker parts at the first one from all lists that are the same up to it. -/
theorem exists_fork {tokens tokens' : List Token} (hend : ∃ t ∈ tokens, t.isEnd)
    (h : tokens'.take (firstEnd tokens + 1) = tokens.take (firstEnd tokens + 1)) :
    ∃ F : Fork, F.left = tokens ∧ F.before.length = firstEnd tokens ∧
      F.before ++ F.marker :: F.behind' = tokens' := by
  have hlt : firstEnd tokens < tokens.length := List.findIdx_lt_length_of_exists hend
  have hbefore : ∀ t ∈ tokens.take (firstEnd tokens), t.isEnd = false := by
    intro t ht
    obtain ⟨i, hi, rfl⟩ := List.mem_take_iff_getElem.1 ht
    simpa using List.not_of_lt_findIdx (Nat.lt_of_lt_of_le hi (Nat.min_le_left _ _))
  have hmarker : tokens[firstEnd tokens].isEnd = true := List.findIdx_getElem
  refine ⟨⟨_, _, tokens.drop (firstEnd tokens + 1), tokens'.drop (firstEnd tokens + 1), hbefore,
    hmarker⟩, ?_, List.length_take_of_le (Nat.le_of_lt hlt), ?_⟩
  · rw [Fork.left, ← List.drop_eq_getElem_cons hlt, List.take_append_drop]
  · rw [List.append_cons, List.take_append_getElem, ← h, List.take_append_drop]

theorem Fork.at_start (F : Fork) (names : NameTable) :
    F.At F.before.length (.ofTokens names F.left)
      (.ofTokens names (F.before ++ F.marker :: F.behind')) := by
  refine ⟨F.before, List.suffix_refl _, rfl, rfl, ?_⟩
  cases h : F.before <;> simp [Cursor.ofTokens, Fork.left, h]

/-- Tokens are consumed, and none of them is an end marker. -/
def Cursor.Progress (c d : Cursor) : Prop :=
  ∃ used, used ≠ [] ∧ c.rest = used ++ d.rest ∧ ∀ t ∈ used, t.isEnd = false

theorem Cursor.Reads.progress {c d : Cursor} {s : Symbol} {ss : List Symbol}
    (h : c.Reads (s :: ss) d) : c.Progress d := by
  obtain ⟨used, hc, hs, hused⟩ := h
  refine ⟨used, ?_, hc, hused⟩
  rintro rfl
  cases hs

namespace Parser

theorem declarationAt_progress {n : Nat} {c d : Cursor} {s : Stmt}
    (h : declarationAt n c = .ok s d) : c.Progress d := by
  obtain ⟨⟨ss, hss, hread⟩, -⟩ := (entry_sound n).declaration _ _ _ h
  obtain ⟨x, xs, hx, -⟩ := s.yield_eq_cons
  rw [List.nil_append, hx] at hss
  exact (hss ▸ hread).progress

theorem expressionAt_progress {n : Nat} {c d : Cursor} {e : Expr}
    (h : expressionAt n c = .ok e d) : c.Progress d := by
  obtain ⟨hread, -⟩ := (entry_sound n).expression _ _ _ h
  obtain ⟨x, xs, hx, -⟩ := e.startsExpr_yield
  exact (hx ▸ hread).progress

/-- On a list that parts at its first end marker, a program is read without a look past the marker,
whatever the readers do that are nested deeper than there are tokens. -/
theorem same_program (F : Fork) (names : NameTable) {g : Entry}
    (hg : g.Unfolds (F.before.length + 1)) :
    F.Runs (Fork.Within F.before.length) (programOver g) program (.ofTokens names F.left)
      (.ofTokens names (F.before ++ F.marker :: F.behind')) := by
  have hentry : (entry (F.before ++ F.marker :: F.behind').length).Unfolds (F.before.length + 1) :=
    (entry_unfolds _).mono (by simp)
  have hruns := same_programOver (hg.same hentry) (Nat.lt_succ_self _) _ _ (F.at_start names)
  exact ⟨hruns.ends, hruns.inside⟩

theorem program_ends (F : Fork) (names : NameTable) :
    F.Ends (Fork.Within F.before.length) (program (.ofTokens names F.left))
      (program (.ofTokens names (F.before ++ F.marker :: F.behind'))) :=
  (same_program F names ((entry_unfolds F.left.length).mono (by simp [Fork.left]))).ends

/-- A program that is read from the list is read up to the marker. -/
theorem rest_of_program {F : Fork} {names : NameTable} {ss : List Stmt} {d : Cursor}
    (h : program (.ofTokens names F.left) = .ok ss d) : d.rest = F.left.drop F.before.length := by
  obtain ⟨-, -, hkind⟩ := program_ok h
  have hends := program_ends F names
  rw [h] at hends
  generalize program (.ofTokens names (F.before ++ F.marker :: F.behind')) = r' at hends
  cases hends with
  | ok _ places => exact places.rest_eq_drop hkind

/-- Of both lists the same is made. -/
theorem parse_fork (F : Fork) (names : NameTable) :
    parse names (F.before ++ F.marker :: F.behind') = parse names F.left := by
  have hends := program_ends F names
  rw [parse, parse]
  generalize program (.ofTokens names F.left) = r,
    program (.ofTokens names (F.before ++ F.marker :: F.behind')) = r' at hends ⊢
  cases hends with
  | ok _ places =>
    obtain ⟨_, -, -, -, rfl⟩ := places
    rfl
  | error _ places =>
    obtain ⟨_, -, -, -, rfl⟩ := places
    rfl

/-- A list with an end marker is rejected for one of the tokens up to the first one. -/
theorem parse_blames {names : NameTable} {tokens : List Token} (hend : ∃ t ∈ tokens, t.isEnd)
    {e : ParseError} (h : (parse names tokens).1 = .error e) :
    ∃ t ∈ tokens.take (firstEnd tokens + 1), e = .ofToken e.fault t := by
  obtain ⟨F, rfl, hlen, -⟩ := exists_fork hend rfl
  have hends := program_ends F names
  rw [parse] at h
  generalize program (.ofTokens names F.left) = r,
    program (.ofTokens names (F.before ++ F.marker :: F.behind')) = r' at hends h
  cases hends with
  | ok => cases h
  | error blamed _ =>
    cases h
    obtain ⟨t, ht, he⟩ := blamed
    refine ⟨t, ?_, he⟩
    rw [← hlen, Fork.left, List.append_cons]
    rwa [List.take_left' (by simp)]

end Parser

open Lox.Parser

/-- **The parser is total and stops at the first end marker.** For every token list whose last token
is an end marker:

* readers that are nested deeper than there are tokens before the first end marker, and loops that
  take more turns, do not matter, since none is reached, and every token that is looked at is before
  that marker or the marker itself;
* declarations and expressions that are read consume at least one token, and no end marker;
* when the reading succeeds, it has stopped at the first end marker;
* the result is that of every list with the same tokens up to the first end marker. -/
theorem parse_total (names : NameTable) {tokens : List Token}
    (hend : ∃ t, tokens.getLast? = some t ∧ t.isEnd) :
    (∀ g : Entry, g.Unfolds (firstEnd tokens + 1) →
      programOver g (.ofTokens names tokens) = program (.ofTokens names tokens) ∧
        Inside tokens (firstEnd tokens) (programOver g) (.ofTokens names tokens)) ∧
    (∀ n c d, (∀ s, declarationAt n c = .ok s d → c.Progress d) ∧
      ∀ e, expressionAt n c = .ok e d → c.Progress d) ∧
    (∀ ss d, program (.ofTokens names tokens) = .ok ss d →
      d.rest = tokens.drop (firstEnd tokens)) ∧
    ∀ tokens', tokens'.take (firstEnd tokens + 1) = tokens.take (firstEnd tokens + 1) →
      parse names tokens' = parse names tokens := by
  obtain ⟨last, hlast, hisEnd⟩ := hend
  have hend : ∃ t ∈ tokens, t.isEnd := ⟨last, List.mem_of_getLast? hlast, hisEnd⟩
  refine ⟨fun g hg => ?_, fun n c d => ⟨fun _ => declarationAt_progress,
    fun _ => expressionAt_progress⟩, fun ss d h => ?_, fun tokens' h => ?_⟩
  · obtain ⟨F, rfl, hlen, hright⟩ := exists_fork hend rfl
    have hbehind : F.behind' = F.behind := by
      rw [Fork.left] at hright
      simpa using hright
    rw [← hlen] at hg ⊢
    have hruns := same_program F names hg
    rw [hright] at hruns
    exact ⟨(hruns.ends.eq hbehind).symm, hruns.inside⟩
  · obtain ⟨F, rfl, hlen, -⟩ := exists_fork hend rfl
    rw [rest_of_program h, hlen]
  · obtain ⟨F, rfl, -, rfl⟩ := exists_fork hend h
    exact parse_fork F names

/-- A declaration whose tokens have odd texts and places, an end marker with a value, and behind it
a number without one. -/
def strayTokens : List Token :=
  [⟨.varWord, "let", none, 7, ⟨9, 3⟩⟩, ⟨.identifier, "", none, 0, ⟨5, 5⟩⟩,
    ⟨.semicolon, "?", none, 2, ⟨1, 0⟩⟩, ⟨.endOfInput, "1", some (.int 1), 3, ⟨4, 8⟩⟩,
    ⟨.integer, "1", none, 1, ⟨2, 2⟩⟩, .endOfInput 1 0]

/-- The declaration is read, and what follows the first end marker may as well be missing. -/
theorem parse_total_strayTokens : ∃ ss d,
    program (.ofTokens .fresh strayTokens) = .ok ss d ∧ d.rest = strayTokens.drop 3 ∧
      programOver (entry 4) (.ofTokens .fresh strayTokens) = .ok ss d ∧
      parse .fresh (strayTokens.take 4) = parse .fresh strayTokens := by
  have hok : (parse .fresh strayTokens).1.isOk := by decide +kernel
  rw [parse] at hok
  split at hok
  · next ss d h =>
    have hend : ∃ t, strayTokens.getLast? = some t ∧ t.isEnd := ⟨_, rfl, rfl⟩
    obtain ⟨hreaders, -, hplace, hresult⟩ := parse_total .fresh hend
    exact ⟨ss, d, h, hplace ss d h, (hreaders _ (entry_unfolds 4)).1.trans h, hresult _ rfl⟩
  · cases hok

end Lox
