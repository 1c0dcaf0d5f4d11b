import Lox.Proofs.ParserCompleteness
import Lox.Proofs.ParserTotality

/-!
# Invalid targets of assignments

An expression before an equals sign that is neither a name nor a property cannot be assigned to. The
value is read before the target is judged: the equals sign is blamed if an expression stands behind
it, and otherwise what is blamed is a token that keeps one from standing there.

* `EndsFrom`, `Entry.Ends`: an expression is read as far as it goes on, with one lemma for each
  reader of expressions;
* `Expr.Stands`: an expression at the head of a token list, and `expression_ok_iff`: one is read
  exactly where one stands;
* `Expr.unassignable`, `assignment_of_unassignable`: what is made of an equals sign behind an
  expression that is no target;
* `invalid_target`.
-/

namespace Lox

/-! ### Ranks of kinds -/

namespace Stops

variable {ss : List Symbol}

theorem of_not_call (hopen : headKind ss ≠ .leftParen) (hdot : headKind ss ≠ .dot) :
    Stops unaryRank ss := by
  intro n hn
  generalize headKind ss = kind at hn hopen hdot
  cases kind <;> cases hn <;> first | decide | contradiction

theorem of_not_operator {level : Level} (h : Stops (level.rank + 1) ss)
    (hop : level.operator? (headKind ss) = none) : Stops level.rank ss := by
  intro n hn
  have hne : n ≠ level.rank := by
    rintro rfl
    generalize headKind ss = kind at hn hop
    cases level <;> cases kind <;> first | cases hn; done | cases hop
  have := h n hn
  omega

theorem of_not_equal (h : Stops 1 ss) (hne : headKind ss ≠ .equal) : Stops 0 ss := by
  intro n hn
  have := h n hn
  obtain rfl : n = 0 := by omega
  generalize headKind ss = kind at hn hne
  cases kind <;> first | cases hn; done | contradiction

end Stops

namespace Parser

variable {α : Type} {g : Entry} {c d : Cursor}

/-! ### Where a reading ends -/

/-- What a reader of expressions accepts, of at most `n` tokens, does not go on as an expression of
at least a rank. -/
def EndsFrom (rank n : Nat) (p : Parser Expr) : Prop :=
  ∀ c e d, p c = .ok e d → c.rest.length ≤ n → Stops rank d.ahead

/-- The readers that are entered again read as far as an expression goes on, if a turn of a loop is
left for every token ahead. -/
structure Entry.Ends (g : Entry) : Prop where
  expression : EndsFrom 0 g.bound g.expression
  unary : EndsFrom unaryRank g.bound g.unary

/-- A loop each turn of which consumes a token, and which has a turn for each token, ends where
`step` stops. What holds before it, and is kept by each turn, holds there. -/
theorem iterate_ends {step : α → Parser (Option α)} {I : Cursor → Prop} {rank n : Nat} {a b : α}
    (turn : ∀ a b c d, I c → c.rest.length ≤ n → step a c = .ok (some b) d →
      I d ∧ d.rest.length < c.rest.length)
    (stop : ∀ a c d, I c → step a c = .ok none d → Stops rank d.ahead) (hc : I c)
    (hn : c.rest.length ≤ n) (h : iterate step n a c = .ok b d) : Stops rank d.ahead := by
  have hloop := iterate_count_ok (P := fun k _ d => I d ∧ k + d.rest.length ≤ c.rest.length)
    (k := 0) (Q := fun _ d => Stops rank d.ahead) (fun k a b c' d' hk hstep => ?_)
    (fun k a c' d' hk hstep => stop a c' d' hk.1 hstep) ⟨hc, by simp⟩ h
  · rcases hloop with hstops | ⟨-, hlen⟩
    · exact hstops
    · have hnil : d.rest = [] := List.eq_nil_of_length_eq_zero (by omega)
      rw [Cursor.ahead, hnil]
      exact .of_eq_none rfl
  · obtain ⟨hI, hlt⟩ := turn a b c' d' hk.1 (by omega) hstep
    exact ⟨hI, by omega⟩

/-- A reader of expressions consumes a token. -/
theorem length_lt_of_soundFrom {rank : Nat} {p : Parser Expr} {e : Expr} (hp : SoundFrom rank p)
    (h : p c = .ok e d) : d.rest.length < c.rest.length := by
  obtain ⟨hread, -, -⟩ := hp _ _ _ h
  obtain ⟨s, ss, hyield, -⟩ := e.startsExpr_yield
  have := hread.length_rest
  rw [hyield, List.length_cons] at this
  omega

section Readers

variable (hg : g.Sound)

include hg

theorem suffix_turn {e f : Expr} (h : suffix g e c = .ok (some f) d) :
    d.rest.length < c.rest.length := by
  rcases accept_bind_ok rfl h with ⟨c₁, hopen, h⟩ | ⟨-, h⟩
  · obtain ⟨args, c₂, hargs, h⟩ := bind_eq_ok.1 h
    obtain ⟨m, -, hrest⟩ := newExprFrom_ok h
    have hopen := hopen.length_rest
    have hread := (arguments_ok hg hargs).1.length_rest
    rw [List.length_singleton] at hopen
    rw [hrest]
    omega
  · rcases accept_bind_ok rfl h with ⟨c₁, hdot, h⟩ | ⟨-, h⟩
    · obtain ⟨x, c₂, hx, h⟩ := bind_eq_ok.1 h
      obtain ⟨m, -, hrest⟩ := newExprFrom_ok h
      have hdot := hdot.length_rest
      have hread := (identifier_ok hx).length_rest
      rw [List.length_singleton] at hdot
      rw [hrest]
      omega
    · cases (pure_eq_ok.1 h).1

omit hg in
theorem suffix_ends {e : Expr} (h : suffix g e c = .ok none d) : Stops unaryRank d.ahead := by
  rcases accept_bind_ok rfl h with ⟨c₁, -, h⟩ | ⟨hopen, h⟩
  · obtain ⟨args, c₂, -, h⟩ := bind_eq_ok.1 h
    obtain ⟨m, ⟨⟩, -⟩ := newExprFrom_ok h
  · rcases accept_bind_ok rfl h with ⟨c₁, -, h⟩ | ⟨hdot, h⟩
    · obtain ⟨x, c₂, -, h⟩ := bind_eq_ok.1 h
      obtain ⟨m, ⟨⟩, -⟩ := newExprFrom_ok h
    · obtain ⟨-, rfl⟩ := pure_eq_ok.1 h
      rw [c.kind_current] at hopen hdot
      exact .of_not_call hopen hdot

theorem call_ends : EndsFrom unaryRank (g.bound + 1) (call g) := by
  intro c e d h hn
  obtain ⟨e₀, c₁, hprimary, h⟩ := bind_eq_ok.1 h
  have hlt := length_lt_of_soundFrom (primary_ok hg) hprimary
  exact iterate_ends (I := fun _ => True) (fun _ _ _ _ _ _ hstep => ⟨trivial, suffix_turn hg hstep⟩)
    (fun _ _ _ _ => suffix_ends) trivial (by omega) h

theorem unary_ends (hends : g.Ends) : EndsFrom unaryRank (g.bound + 1) (unary g) := by
  intro c e d h hn
  rw [unary, peekKind_bind] at h
  cases hop : UnaryOp.ofKind? c.current.kind with
  | some op =>
    rw [hop] at h
    obtain ⟨t, c₁, hadv, h⟩ := bind_eq_ok.1 h
    obtain ⟨operand, c₂, hoperand, h⟩ := bind_eq_ok.1 h
    obtain ⟨m, -, hrest⟩ := newExpr_ok h
    have hkind : op.kind = c.current.kind := UnaryOp.ofKind?_eq_some hop
    have hlen := (advance_ok_mark hadv hkind.symm (by cases op <;> rfl)).length_rest
    rw [List.length_singleton] at hlen
    rw [Cursor.ahead, hrest]
    exact hends.unary _ _ _ hoperand (by omega)
  | none =>
    rw [hop] at h
    exact call_ends hg _ _ _ h hn

omit hg in
/-- One turn of a chain: the operand behind the operator is read as far as it goes on. -/
theorem chainStep_turn {level : Level} {operand : Parser Expr} {rank n : Nat}
    (ho : SoundFrom rank operand) (hends : EndsFrom rank n operand) {left e : Expr}
    (hn : c.rest.length ≤ n) (h : chainStep level operand left c = .ok (some e) d) :
    Stops rank d.ahead ∧ d.rest.length < c.rest.length := by
  rw [chainStep, peekKind_bind] at h
  cases hop : level.operator? c.current.kind with
  | none =>
    rw [hop] at h
    cases (pure_eq_ok.1 h).1
  | some op =>
    rw [hop] at h
    obtain ⟨t, c₁, hadv, h⟩ := bind_eq_ok.1 h
    obtain ⟨right, c₂, hright, h⟩ := bind_eq_ok.1 h
    obtain ⟨m, -, hrest⟩ := newExpr_ok h
    have hkind := (Level.operator?_eq_some hop).1
    have hlen := (advance_ok_mark hadv hkind.symm op.isMark_kind).length_rest
    have hlt := length_lt_of_soundFrom ho hright
    rw [List.length_singleton] at hlen
    rw [Cursor.ahead, hrest]
    exact ⟨hends _ _ _ hright (by omega), by omega⟩

omit hg in
theorem chainStep_ends {level : Level} {operand : Parser Expr} {left : Expr}
    (hc : Stops (level.rank + 1) c.ahead) (h : chainStep level operand left c = .ok none d) :
    Stops level.rank d.ahead := by
  rw [chainStep, peekKind_bind] at h
  cases hop : level.operator? c.current.kind with
  | none =>
    rw [hop] at h
    obtain ⟨-, rfl⟩ := pure_eq_ok.1 h
    rw [c.kind_current] at hop
    exact hc.of_not_operator hop
  | some op =>
    rw [hop] at h
    obtain ⟨t, c₁, -, h⟩ := bind_eq_ok.1 h
    obtain ⟨right, c₂, -, h⟩ := bind_eq_ok.1 h
    obtain ⟨m, ⟨⟩, -⟩ := newExpr_ok h

theorem chain_ends (hends : g.Ends) {levels : List Level} (hl : levels <:+ Level.all) :
    EndsFrom (chainRank levels) (g.bound + 1) (chain g levels) := by
  induction levels with
  | nil => exact unary_ends hg hends
  | cons level levels ih =>
    intro c e d h hn
    obtain ⟨hlevel, hrank⟩ := chainRank_of_suffix hl
    have hsuffix := (List.suffix_cons level levels).trans hl
    have ih := ih hsuffix
    have hsound := chain_ok hg hsuffix
    rw [hrank] at ih hsound
    rw [hlevel]
    obtain ⟨e₀, c₁, hfirst, h⟩ := bind_eq_ok.1 h
    have hlt := length_lt_of_soundFrom hsound hfirst
    refine iterate_ends (I := fun c => Stops (level.rank + 1) c.ahead)
      (fun _ _ c' _ _ hc' hstep => ?_) (fun _ _ _ => chainStep_ends) (ih _ _ _ hfirst hn)
      (by omega) h
    exact chainStep_turn hsound ih (by omega) hstep

omit hg in
theorem assign_rest {equals : Token} {target value e : Expr}
    (h : assign equals target value c = .ok e d) : d.rest = c.rest := by
  unfold assign at h
  split at h
  · obtain ⟨_, _, ⟨⟩, h⟩ := bind_eq_ok.1 h
    exact (newExpr_ok h).choose_spec.2
  · obtain ⟨_, _, ⟨⟩, h⟩ := bind_eq_ok.1 h
    exact (newExpr_ok h).choose_spec.2
  · exact absurd h failAt_ne_ok

theorem assignment_ends (hends : g.Ends) : EndsFrom 0 (g.bound + 1) (assignment g) := by
  intro c e d h hn
  obtain ⟨left, c₁, hleft, h⟩ := bind_eq_ok.1 h
  have hlt := length_lt_of_soundFrom (chain_ok hg (List.suffix_refl _)) hleft
  have hstops : Stops 1 c₁.ahead := chain_ends hg hends (List.suffix_refl _) _ _ _ hleft hn
  rw [peekKind_bind] at h
  split at h
  · next hequal =>
    obtain ⟨t, c₂, hadv, h⟩ := bind_eq_ok.1 h
    obtain ⟨value, c₃, hvalue, h⟩ := bind_eq_ok.1 h
    have hlen := (advance_ok_mark hadv (by simpa using hequal) rfl).length_rest
    rw [List.length_singleton] at hlen
    rw [Cursor.ahead, assign_rest h]
    exact hends.expression _ _ _ hvalue (by omega)
  · next hequal =>
    obtain ⟨rfl, rfl⟩ := pure_eq_ok.1 h
    rw [c₁.kind_current] at hequal
    exact hstops.of_not_equal (by simpa using hequal)

end Readers

theorem entry_ends (n : Nat) : (entry n).Ends := by
  induction n with
  | zero => exact ⟨fun _ _ _ h => absurd h failAt_ne_ok, fun _ _ _ h => absurd h failAt_ne_ok⟩
  | succ n ih => exact ⟨assignment_ends (entry_sound n) ih, unary_ends (entry_sound n) ih⟩

end Parser

/-! ### Values and targets -/

/-- An expression stands at the head of a token list: it is written with the first tokens, and it
does not go on with the next one. -/
def Expr.Stands (e : Expr) (tokens : List Token) : Prop :=
  e.grammatical ∧ ∃ used rest, tokens = used ++ rest ∧ used.map Token.symbol = e.yield ∧
    Stops 0 (rest.map Token.symbol)

/-- Whether an expression is neither a name nor a property, which can be assigned to, nor an
assignment. -/
def Expr.unassignable : Expr → Bool
  | .var _ _ | .get _ _ _ | .assign _ _ _ | .set _ _ _ _ => false
  | _ => true

namespace Expr

variable {e : Expr}

theorem unassignable_unmarked (e : Expr) : e.unmarked.unassignable = e.unassignable := by
  cases e <;> rfl

theorem one_le_rank_of_unassignable (h : e.unassignable) : 1 ≤ e.rank := by
  cases e with
  | var | get | assign | set => cases h
  | binary m l op r | logical m l op r => exact op.level.rank_pos
  | _ => simp [rank, unaryRank, callRank, primaryRank]

end Expr

namespace Parser

variable {c d : Cursor} {g : Entry} {n : Nat} {equals : Token} {target value : Expr}

theorem assign_of_unassignable (h : target.unassignable) :
    assign equals target value c = .error (.ofToken .invalidTarget equals) c := by
  cases target with
  | var | get | assign | set => cases h
  | _ => rfl

/-- An expression is read exactly where one stands. -/
theorem expression_ok_iff (hn : c.rest.length < n) :
    (∃ e d, (entry n).expression c = .ok e d) ↔ ∃ value : Expr, value.Stands c.rest := by
  constructor
  · rintro ⟨e, d, h⟩
    obtain ⟨⟨used, hrest, hyield, -⟩, hgram, -⟩ := (entry_sound n).expression _ _ _ h
    exact ⟨e, hgram, used, d.rest, hrest, hyield,
      (entry_ends n).expression _ _ _ h (Nat.le_of_lt hn)⟩
  · rintro ⟨value, hgram, used, rest, hrest, hyield, hstops⟩
    have hc : c.ahead = value.yield ++ rest.map Token.symbol := by
      rw [Cursor.ahead, hrest, List.map_append, hyield]
    obtain ⟨e, d, h, -⟩ := (entry_complete n).expression value c _ hgram (Nat.zero_le _) hstops hc
      (by rwa [← c.length_rest])
    exact ⟨e, d, h⟩

/-- Two ways to part a list whose ends are equally long. -/
theorem rest_eq_of_ahead {used before behind : List Token} (hused : c.rest = used ++ d.rest)
    (hc : c.rest = before ++ behind) (hd : d.ahead = behind.map Token.symbol) :
    d.rest = behind := by
  have hlen : d.rest.length = behind.length := by
    rw [d.length_rest, hd, List.length_map]
  exact (List.append_inj' (hused.symm.trans hc) hlen).2

/-- Behind an expression that is no target, an equals sign is consumed and a value is read. If there
is one, the equals sign is blamed. -/
theorem assignment_of_unassignable {before behind : List Token} (hgram : target.grammatical)
    (hun : target.unassignable) (hbefore : before.map Token.symbol = target.yield)
    (hequals : equals.kind = .equal) (hc : c.rest = before ++ equals :: behind)
    (hn : c.rest.length ≤ n) : ∃ d, d.rest = behind ∧
      (∀ value d', (entry n).expression d = .ok value d' →
        assignment (entry n) c = .error (.ofToken .invalidTarget equals) d') ∧
      ∀ e d', (entry n).expression d = .error e d' → assignment (entry n) c = .error e d' := by
  have hsymbol : equals.symbol = .fixed .equal := by
    rw [Token.symbol_of_isMark (by rw [hequals]; rfl), hequals]
  have hahead : c.ahead = target.yield ++ (equals :: behind).map Token.symbol := by
    rw [Cursor.ahead, hc, List.map_append, hbefore]
  have hstops : Stops 1 ((equals :: behind).map Token.symbol) := by
    rw [List.map_cons, hsymbol]
    rintro _ ⟨⟩
    exact Nat.zero_lt_one
  obtain ⟨target', c₁, hchain, hmarks, hc₁⟩ := chain_takes (entry_complete n) (List.suffix_refl _)
    target c _ hgram (Expr.one_le_rank_of_unassignable hun) hstops hahead
    (by rw [← c.length_rest]; exact Nat.lt_succ_of_le hn)
  have hun' : target'.unassignable := by
    rwa [← target'.unassignable_unmarked, hmarks, target.unassignable_unmarked]
  obtain ⟨⟨used, hused, -⟩, -⟩ := chain_ok (entry_sound n) (List.suffix_refl _) _ _ _ hchain
  have hrest := rest_eq_of_ahead hused hc hc₁
  have hcurrent : c₁.current = equals := by rw [Cursor.current, hrest, List.headD_cons]
  obtain ⟨rest, hcons, hadv⟩ := advance_eq (c := c₁) (by simp [hcurrent, hequals])
  rw [hcurrent] at hcons hadv
  obtain ⟨-, rfl⟩ := List.cons.inj (hcons.symm.trans hrest)
  have hread : assignment (entry n) c =
      ((entry n).expression >>= assign equals target') { c₁ with rest, last := equals.span } := by
    rw [assignment, bind_of_ok hchain, peekKind_bind, hcurrent, hequals]
    exact bind_of_ok hadv
  refine ⟨{ c₁ with rest, last := equals.span }, rfl, fun value d' hvalue => ?_,
    fun e d' herror => ?_⟩
  · rw [hread, bind_of_ok hvalue, assign_of_unassignable hun']
  · rw [hread, bind_of_error herror]

/-- An error of the value behind an equals sign is blamed on a token of it. -/
theorem expression_blames {e : ParseError} (hend : ∃ t ∈ c.rest, t.isEnd)
    (hn : c.rest.length ≤ n) (h : (entry n).expression c = .error e d) :
    ∃ t ∈ c.rest.take (firstEnd c.rest + 1), e = .ofToken e.fault t := by
  obtain ⟨F, hleft, hlen, -⟩ := exists_fork hend rfl
  have hlt : F.before.length < n := by
    rw [← hleft, Fork.left, List.length_append, List.length_cons] at hn
    omega
  have hat : F.At F.before.length c { c with rest := F.before ++ F.marker :: F.behind' } :=
    ⟨F.before, List.suffix_refl _, rfl, hleft.symm, rfl⟩
  have hends := (((entry_unfolds n).same (entry_unfolds n)).expression _ hlt _ _ hat).ends
  rw [h] at hends
  generalize (entry n).expression { c with rest := F.before ++ F.marker :: F.behind' } = r' at hends
  cases hends with
  | error blamed =>
    obtain ⟨t, ht, he⟩ := blamed
    refine ⟨t, ?_, he⟩
    rw [← hlen, ← hleft, Fork.left, List.append_cons]
    rwa [List.take_left' (by simp)]

/-- A program is rejected for its first declaration. -/
theorem program_of_declaration_error {e : ParseError} (hne : c.current.kind ≠ .endOfInput)
    (h : declaration (entry c.rest.length) c = .error e d) : program c = .error e d := by
  obtain ⟨rest, hrest, -⟩ := advance_eq hne
  have hlen : c.rest.length = rest.length + 1 := by rw [hrest, List.length_cons]
  have turn (found : List Stmt) : (do
      if (← peekKind) == .endOfInput then return none
      else return some ((← declaration (entry c.rest.length)) :: found) :
        Parser (Option (List Stmt))) c = .error e d := by
    rw [peekKind_bind, if_neg (by simpa using hne)]
    exact bind_of_error h
  refine bind_of_error ?_
  show iterate _ c.rest.length [] c = _
  rw [hlen] at turn ⊢
  exact bind_of_error (turn [])

theorem program_of_assignment_error {e : ParseError} (hstart : StartsExpr c.ahead)
    (h : assignment (entry c.rest.length) c = .error e d) : program c = .error e d := by
  have hne : c.current.kind ≠ .endOfInput := by
    have hhead := hstart.headKind
    rw [← c.kind_current] at hhead
    rintro hend
    rw [hend] at hhead
    cases hhead
  refine program_of_declaration_error hne ?_
  rw [declaration, peek_bind, peekNextKind_bind, c.nextKind_eq, c.kind_current,
    afterWord?_eq_none hstart]
  exact bind_of_error h

end Parser

open Lox.Parser

/-- The tokens before a semicolon that are read as one expression are those that it is written
with. -/
theorem written_of_statement {names : NameTable} {before : List Token} {semicolon eof : Token}
    {program : Program} {mark : Mark} {e : Expr} (hopen : ∀ t ∈ before, t.isEnd = false)
    (hsemicolon : semicolon.kind = .semicolon) (heof : eof.isEnd)
    (hparse : (parse names (before ++ [semicolon, eof])).1 = .ok program)
    (hstatement : program.statements = [.expression mark e]) :
    before.map Token.symbol = e.yield ∧ e.grammatical := by
  have hopen' : ∀ t ∈ before ++ [semicolon], t.isEnd = false := by
    simpa [or_imp, forall_and, Token.isEnd, hsemicolon] using hopen
  have hsymbol : semicolon.symbol = .fixed .semicolon := by
    rw [Token.symbol_of_isMark (by rw [hsemicolon]; rfl), hsemicolon]
  rw [List.append_cons, parse] at hparse
  split at hparse
  · next hprogram =>
    cases hparse
    obtain ⟨hyield, hgram⟩ := program_sound hopen' heof hprogram
    subst hstatement
    simp only [yieldAll, Stmt.yield, List.append_nil, List.map_append, List.map_cons, hsymbol,
      List.map_nil, List.append_cancel_right_eq] at hyield
    exact ⟨hyield, by simpa [grammaticalAll, Stmt.grammatical] using hgram⟩
  · cases hparse

/-- **What cannot be assigned to.** Let tokens before a semicolon be an expression that is neither a
name nor a property nor an assignment. With an equals sign in place of the semicolon they are
rejected, whatever follows:

* if an expression stands behind the equals sign, then because the target is invalid, and the equals
  sign is blamed;
* if none does, for a token behind the equals sign, up to the first end marker. -/
theorem invalid_target (names : NameTable) {before : List Token} {semicolon equals eof : Token}
    {program : Program} {mark : Mark} {target : Expr} (hopen : ∀ t ∈ before, t.isEnd = false)
    (hsemicolon : semicolon.kind = .semicolon) (heof : eof.isEnd)
    (hparse : (parse names (before ++ [semicolon, eof])).1 = .ok program)
    (hstatement : program.statements = [.expression mark target]) (htarget : target.unassignable)
    (hequals : equals.kind = .equal) (behind : List Token) :
    ∃ e, (parse names (before ++ equals :: (behind ++ [eof]))).1 = .error e ∧
      ((∃ value : Expr, value.Stands (behind ++ [eof])) → e = .ofToken .invalidTarget equals) ∧
      ((∀ value : Expr, ¬ value.Stands (behind ++ [eof])) →
        ∃ t ∈ (behind ++ [eof]).take (firstEnd (behind ++ [eof]) + 1),
          e = .ofToken e.fault t) := by
  obtain ⟨hbefore, hgram⟩ := written_of_statement hopen hsemicolon heof hparse hstatement
  let c : Cursor := .ofTokens names (before ++ equals :: (behind ++ [eof]))
  have hc : c.ahead = target.yield ++ (equals :: (behind ++ [eof])).map Token.symbol := by
    rw [← hbefore, ← List.map_append]
    rfl
  have hread {e : ParseError} {d : Cursor}
      (h : assignment (entry c.rest.length) c = .error e d) :
      (parse names (before ++ equals :: (behind ++ [eof]))).1 = .error e := by
    rw [parse, program_of_assignment_error (hc ▸ target.startsExpr_yield.append _) h]
  obtain ⟨d, hd, hvalue, herror⟩ := assignment_of_unassignable hgram htarget hbefore hequals
    (c := c) rfl (Nat.le_refl _)
  have hlen : d.rest.length < c.rest.length := by
    rw [hd]
    simp only [c, Cursor.ofTokens, List.length_append, List.length_cons]
    omega
  have hiff := expression_ok_iff hlen
  rw [hd] at hiff
  cases hexpression : (entry c.rest.length).expression d with
  | ok value d' =>
    exact ⟨_, hread (hvalue value d' hexpression), fun _ => rfl,
      fun hnone => absurd (hiff.1 ⟨value, d', hexpression⟩) (not_exists.2 hnone)⟩
  | error e d' =>
    refine ⟨e, hread (herror e d' hexpression), fun hstands => ?_, fun _ => ?_⟩
    · obtain ⟨_, _, hok⟩ := hiff.2 hstands
      rw [hexpression] at hok
      cases hok
    · have hend : ∃ t ∈ d.rest, t.isEnd := ⟨eof, by simp [hd], heof⟩
      rw [← hd]
      exact expression_blames hend (Nat.le_of_lt hlen) hexpression

/-- The tokens of a sum, and an equals sign and a semicolon behind it. -/
def sumTokens : List Token :=
  [⟨.identifier, "a", none, 1, ⟨0, 1⟩⟩, ⟨.plus, "+", none, 1, ⟨2, 3⟩⟩,
    ⟨.identifier, "b", none, 1, ⟨4, 5⟩⟩]

@[inherit_doc sumTokens]
def sumEquals : Token := ⟨.equal, "=", none, 1, ⟨6, 7⟩⟩

@[inherit_doc sumTokens]
def sumSemicolon : Token := ⟨.semicolon, ";", none, 1, ⟨8, 9⟩⟩

/-- With a sum as its value too, the equals sign behind a sum is blamed. -/
theorem invalid_target_sumTokens : ∃ e,
    (parse .fresh (sumTokens ++ sumEquals ::
      (sumTokens ++ [sumSemicolon] ++ [.endOfInput 1 9]))).1 = .error e ∧
    e = .ofToken .invalidTarget sumEquals := by
  have hsum : (match (parse .fresh (sumTokens ++ [sumSemicolon, .endOfInput 1 9])).1 with
      | .ok ⟨[.expression _ target], _, _, _⟩ => target.unassignable
      | _ => false) = true := by
    decide +kernel
  split at hsum
  · next hparse =>
    have hequals : sumEquals.kind = .equal := rfl
    obtain ⟨e, he, hvalue, -⟩ := invalid_target .fresh (by decide) rfl rfl hparse rfl hsum hequals
      (sumTokens ++ [sumSemicolon])
    exact ⟨e, he, hvalue ⟨.binary .blank (.var .blank "a") .add (.var .blank "b"), by decide,
      sumTokens, [sumSemicolon, .endOfInput 1 9], rfl, rfl, .of_eq_none rfl⟩⟩
  · cases hsum

/-- Without a value, the semicolon is blamed. -/
example : (match (parse .fresh (sumTokens ++ [sumEquals, sumSemicolon, .endOfInput 1 9])).1 with
    | .ok _ => none
    | .error e => some e) = some (.ofToken (.expected .expression) sumSemicolon) := by
  decide +kernel

end Lox
