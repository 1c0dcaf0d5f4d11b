import Lox.Proofs.Taking
import Lox.Proofs.Unmarked

/-!
# What is written is parsed

When the symbols of a tree of the grammar are ahead, the reader for its rule consumes exactly these
and gives that tree, up to marks.

* `Kind.rank?`, `Stops`: the symbols with which an expression could go on, and where it ends;
* `Entry.Complete`: the statement above, for the readers that are entered again;
* one lemma for each reader, over complete ones;
* `program_takes`: the same for a whole program.
-/

namespace Lox

/-! ### Where an expression ends -/

/-- The rank of the expressions that a symbol of a kind makes of the expression before it. -/
def Kind.rank? : Kind → Option Nat
  | equal => some 0
  | orWord => some Level.or.rank
  | andWord => some Level.and.rank
  | ampersand | pipe | caret | shiftLeft | shiftRight => some Level.bitwise.rank
  | equalEqual | bangEqual => some Level.equality.rank
  | less | lessEqual | greater | greaterEqual => some Level.comparison.rank
  | plus | minus => some Level.term.rank
  | star | slash => some Level.factor.rank
  | leftParen | dot => some callRank
  | _ => none

theorem Kind.lt_of_rank? {k : Kind} {n : Nat} (h : k.rank? = some n) : n < primaryRank := by
  cases k <;> cases h <;> decide

theorem Operator.rank?_kind (op : Operator) : op.kind.rank? = some op.level.rank := by
  rcases op with op | op <;> cases op <;> rfl

theorem Operator.operator?_kind (op : Operator) : op.level.operator? op.kind = some op := by
  rcases op with op | op <;> cases op <;> rfl

theorem UnaryOp.ofKind?_kind (op : UnaryOp) : ofKind? op.kind = some op := by
  cases op <;> rfl

/-- No expression of at least a rank goes on with these symbols. -/
def Stops (rank : Nat) (ss : List Symbol) : Prop := ∀ n, (headKind ss).rank? = some n → n < rank

namespace Stops

variable {rank : Nat} {ss : List Symbol}

theorem mono {rank' : Nat} (h : Stops rank ss) (hr : rank ≤ rank') : Stops rank' ss :=
  fun n hn => Nat.lt_of_lt_of_le (h n hn) hr

theorem of_eq_none (h : (headKind ss).rank? = none) : Stops rank ss := by
  intro n hn
  rw [h] at hn
  cases hn

theorem primary (ss : List Symbol) : Stops primaryRank ss := fun _ hn => Kind.lt_of_rank? hn

theorem operator (op : Operator) (ss : List Symbol) :
    Stops (op.level.rank + 1) (.fixed op.kind :: ss) := by
  intro n hn
  rw [headKind_cons, Symbol.kind_fixed, op.rank?_kind] at hn
  cases hn
  exact Nat.lt_succ_self _

theorem operator?_eq_none {level : Level} (h : Stops level.rank ss) :
    level.operator? (headKind ss) = none := by
  cases hop : level.operator? (headKind ss) with
  | none => rfl
  | some op =>
    obtain ⟨hkind, rfl⟩ := Level.operator?_eq_some hop
    exact absurd (h _ (hkind ▸ op.rank?_kind)) (Nat.lt_irrefl _)

theorem ne_of_rank? {k : Kind} {n : Nat} (h : Stops rank ss) (hk : k.rank? = some n)
    (hn : rank ≤ n) : headKind ss ≠ k := by
  rintro rfl
  exact absurd (h n hk) (Nat.not_lt.2 hn)

end Stops

/-! ### First symbols -/

theorem StartsExpr.headKind {ss : List Symbol} (h : StartsExpr ss) :
    (headKind ss).startsExpr := by
  obtain ⟨s, rest, rfl, hs, -⟩ := h
  exact hs

theorem Expr.headKind_yield_append (e : Expr) (ss : List Symbol) :
    (headKind (e.yield ++ ss)).startsExpr :=
  (e.startsExpr_yield.append ss).headKind

/-- Nothing that is called, or has a property, starts with a prefix operator. -/
theorem Expr.ofKind?_headKind_yield : ∀ e : Expr, e.grammatical → callRank ≤ e.rank →
    ∀ ss, UnaryOp.ofKind? (headKind (e.yield ++ ss)) = none
  | .literal _ v, _, _, _ => by
    rcases v with _ | b | _ | _ | _
    · rfl
    · cases b <;> rfl
    all_goals rfl
  | .group _ e, _, _, _ => rfl
  | .unary _ _ _, _, hr, _ => absurd hr (by simp [rank, callRank, unaryRank])
  | .binary _ _ op _, _, hr, _ | .logical _ _ op _, _, hr, _ =>
    absurd hr (Nat.not_le.2 (Nat.lt_succ_of_lt op.level.rank_lt_unaryRank))
  | .var _ _, _, _, _ => rfl
  | .assign _ _ _, _, hr, _ => absurd hr (Nat.not_succ_le_zero _)
  | .call _ f args, hg, _, ss => by
    simp only [grammatical, Bool.and_eq_true, decide_eq_true_eq] at hg
    rw [yield, List.append_assoc, List.append_assoc]
    exact f.ofKind?_headKind_yield hg.1.1 hg.1.2 _
  | .lambda _ _ _, _, _, _ => rfl
  | .get _ e x, hg, _, ss => by
    simp only [grammatical, Bool.and_eq_true, decide_eq_true_eq] at hg
    rw [yield, List.append_assoc]
    exact e.ofKind?_headKind_yield hg.1 hg.2 _
  | .set _ _ _ _, _, hr, _ => absurd hr (Nat.not_succ_le_zero _)

/-! ### Completeness -/

namespace Parser

/-- A reader accepts every expression of at least a rank, where that many symbols are ahead. -/
def CompleteFrom (rank bound : Nat) (p : Parser Expr) : Prop :=
  ∀ (e : Expr) (c : Cursor) (tail : List Symbol), e.grammatical → rank ≤ e.rank →
    Stops rank tail → c.ahead = e.yield ++ tail → c.ahead.length < bound →
    Takes p c (fun e' => e'.unmarked = e.unmarked) tail

/-- A reader accepts every statement, where that many symbols are ahead. -/
def CompleteStmt (bound : Nat) (p : Parser Stmt) : Prop :=
  ∀ (s : Stmt) (c : Cursor) (tail : List Symbol), s.grammatical →
    (s.endsOpen → headKind tail ≠ .elseWord) → c.ahead = s.yield ++ tail →
    c.ahead.length < bound → Takes p c (fun s' => s'.unmarked = s.unmarked) tail

/-- The readers that are entered again are complete, where a turn of a loop is left for every
symbol ahead. -/
structure Entry.Complete (g : Entry) : Prop where
  expression : CompleteFrom 0 g.bound g.expression
  unary : CompleteFrom unaryRank g.bound g.unary
  declaration : CompleteStmt g.bound g.declaration

variable {α β : Type} {g : Entry} {c d : Cursor} {tail : List Symbol}

/-! ### Lists -/

/-- Items up to a closing parenthesis. `I` says what is found after some of them. -/
theorem commaList_takes {Y : β → List Symbol} {I : List β → List α → Prop}
    {item : List α → Parser α} {x : β} {xs : List β}
    (hitem : ∀ done y rest found c tail, x :: xs = done ++ y :: rest → I done found →
      c.ahead = Y y ++ tail → headKind tail = .comma ∨ headKind tail = .rightParen →
      c.ahead.length < g.bound → Takes (item found) c (fun a => I (done ++ [y]) (a :: found)) tail)
    (hnil : I [] []) (hc : c.ahead = separated ((x :: xs).map Y) ++ .fixed .rightParen :: tail)
    (hn : c.ahead.length < g.bound) :
    Takes (commaList g item) c (fun found => I (x :: xs) found.reverse)
      (.fixed .rightParen :: tail) := by
  have hsep : separated ((x :: xs).map Y) = Y x ++ xs.flatMap fun y => .fixed .comma :: Y y := by
    simp [separated, List.flatMap_map]
  have hhead : ∀ ys : List β, headKind ((ys.flatMap fun y => .fixed .comma :: Y y) ++
      .fixed .rightParen :: tail) = .comma ∨ headKind ((ys.flatMap fun y => .fixed .comma :: Y y) ++
      .fixed .rightParen :: tail) = .rightParen := by
    rintro (_ | ⟨y, ys⟩)
    · exact .inr rfl
    · exact .inl rfl
  rw [hsep, List.append_assoc] at hc
  refine (hitem [] x xs [] c _ rfl hnil hc (hhead xs) hn).bind fun a d ha hd => ?_
  have hlen : d.ahead.length < g.bound := by
    have := congrArg List.length hc
    rw [List.length_append, ← hd] at this
    omega
  refine (iterate_takes (I := fun done => I (x :: done)) (by simp) ?_ ?_ ha hd
    (Nat.le_of_lt hlen)).bind fun found d hfound hd => takes_pure (by simpa using hfound) hd
  · rintro done y rest found d rfl hfound hd hlen
    rw [List.cons_append] at hd
    refine accept_bind hd rfl fun d' hd' => ?_
    refine (hitem (x :: done) y rest found d' _ rfl hfound hd' (hhead rest) ?_).bind
      fun b e hb he => takes_pure ⟨_, rfl, hb⟩ he
    rw [hd'] at *
    rw [hd, List.length_cons] at hlen
    omega
  · intro found d _ hd
    exact bind_eq_ok.2 ⟨false, d, accept_eq_ok_of_ne (by simp [hd]), rfl⟩

/-- A loop over statements, up to a symbol at which no statement starts. -/
theorem statements_takes (ends : Kind → Bool) {p : Parser Stmt} {bound n : Nat} {body : List Stmt}
    (hp : CompleteStmt bound p) (hstart : ∀ s : Stmt, ends (headKind s.yield) = false)
    (hends : ends (headKind tail)) (helse : headKind tail ≠ .elseWord) (hbody : grammaticalAll body)
    (hc : c.ahead = yieldAll body ++ tail) (hn : c.ahead.length ≤ n)
    (hbound : c.ahead.length < bound) :
    Takes (iterate (fun found => do
        if ends (← peekKind) then return none else return some ((← p) :: found)) n []) c
      (fun found : List Stmt => unmarkedAll found.reverse = unmarkedAll body) tail := by
  have hhead : ∀ ss : List Stmt, headKind (ss.flatMap Stmt.yield ++ tail) ≠ .elseWord := by
    rintro (_ | ⟨s, ss⟩)
    · exact helse
    · obtain ⟨x, xs, hx, -, -, hne⟩ := s.yield_eq_cons
      simpa [hx] using hne
  rw [yieldAll_eq_flatMap] at hc
  refine iterate_takes (Y := Stmt.yield)
    (I := fun done (found : List Stmt) => unmarkedAll found.reverse = unmarkedAll done)
    ?_ ?_ ?_ rfl hc hn
  · intro s _ hnil
    obtain ⟨x, xs, hx, -⟩ := s.yield_eq_cons
    simp [hx] at hnil
  · rintro done s rest found c rfl hfound hc hlen
    have hs : s.grammatical := grammaticalAll_iff.1 hbody s (by simp)
    have hkind : ends (headKind c.ahead) = false := by
      obtain ⟨x, xs, hx, -⟩ := s.yield_eq_cons
      simpa [hc, hx] using hstart s
    refine peekKind_bind_takes ?_
    rw [hkind]
    refine (hp s c _ hs (fun _ => hhead rest) hc (by omega)).bind fun s' d hs' hd => ?_
    refine takes_pure ⟨_, rfl, ?_⟩ hd
    simpa [unmarkedAll_eq_map, hs'] using hfound
  · intro found c _ hc
    rw [peekKind_bind, c.kind_current, hc, if_pos hends]
    rfl

theorem blockBody_takes (hg : g.Complete) {body : List Stmt} (hbody : grammaticalAll body)
    (hc : c.ahead = yieldAll body ++ .fixed .rightBrace :: tail) (hn : c.ahead.length < g.bound) :
    Takes (blockBody g) c (fun body' => unmarkedAll body' = unmarkedAll body) tail := by
  refine (statements_takes (fun kind => kind == .rightBrace || kind == .endOfInput)
    hg.declaration (fun s => ?_) rfl (by simp) hbody hc (Nat.le_of_lt hn) hn).bind
    fun found d hfound hd => ?_
  · obtain ⟨x, xs, hx, hbrace, hend, -⟩ := s.yield_eq_cons
    simp [hx, hbrace, hend]
  · exact expect_bind hd rfl fun _ _ he => takes_pure hfound he

theorem parameters_takes {params : List String} (hparams : params.length ≤ maxParameters)
    (hc : c.ahead = separated (params.map fun x => [.name x]) ++ .fixed .rightParen :: tail)
    (hn : c.ahead.length < g.bound) :
    Takes (if headKind c.ahead == .rightParen then pure [] else commaList g parameter) c
      (· = params) (.fixed .rightParen :: tail) := by
  cases params with
  | nil =>
    have hc : c.ahead = .fixed .rightParen :: tail := hc
    rw [if_pos (by rw [hc]; rfl)]
    exact takes_pure rfl hc
  | cons x xs =>
    have hhead : headKind c.ahead = .identifier := by
      rw [hc]
      rfl
    rw [if_neg (by simp [hhead])]
    refine (commaList_takes (I := fun done found => found = done.reverse) ?_ rfl hc hn).mono
      fun found hfound => by simpa using congrArg List.reverse hfound
    rintro done y rest _ d tail hxs rfl hd - -
    have hlen : ¬ maxParameters ≤ done.reverse.length := by
      have := congrArg List.length hxs
      simp only [List.length_append, List.length_cons] at this hparams
      rw [List.length_reverse]
      omega
    obtain ⟨e, hname, he⟩ := identifier_eq_ok hd
    rw [parameter, if_neg hlen]
    exact ⟨y, e, hname, by simp, he⟩

/-- The parameters and the body of a function. -/
theorem functionRest_takes (hg : g.Complete) {params : List String} {body : List Stmt}
    (hparams : params.length ≤ maxParameters) (hbody : grammaticalAll body)
    (hc : c.ahead = functionYield params (yieldAll body) ++ tail) (hn : c.ahead.length < g.bound) :
    Takes (functionRest g) c (fun r => r.1 = params ∧ unmarkedAll r.2 = unmarkedAll body) tail := by
  simp only [functionYield, List.cons_append, List.append_assoc, List.nil_append] at hc
  refine expect_bind hc rfl fun _ c₁ h₁ => ?_
  rw [hc, List.length_cons, ← h₁] at hn
  refine peekKind_bind_takes ?_
  rw [ite_bind]
  refine (parameters_takes hparams h₁ (by omega)).bind ?_
  rintro _ c₂ rfl h₂
  refine expect_bind h₂ rfl fun _ c₃ h₃ => expect_bind h₃ rfl fun _ c₄ h₄ => ?_
  have hlen : c₄.ahead.length ≤ c₁.ahead.length := by
    rw [h₁, h₄]
    simp only [List.length_append, List.length_cons]
    omega
  exact (blockBody_takes hg hbody h₄ (by omega)).bind fun body' d hbody' hd =>
    takes_pure ⟨rfl, hbody'⟩ hd

/-! ### Expressions -/

theorem literal?_of_symbol {t : Token} {value : Literal} (h : t.symbol = value.symbol) :
    literal? t = some value := by
  have hk : t.kind = value.symbol.kind := by rw [← h, t.kind_symbol]
  rcases value with _ | b | n | x | s
  · simp [literal?, show t.kind = .nilWord from hk]
  · cases b
    · simp [literal?, show t.kind = .falseWord from hk]
    · simp [literal?, show t.kind = .trueWord from hk]
  · have hk : t.kind = .integer := hk
    have hp : t.payload = some (.int n) := by simpa [Token.symbol, hk, Literal.symbol] using h
    simp [literal?, hk, hp]
  · have hk : t.kind = .float := hk
    have hp : t.payload = some (.float x) := by simpa [Token.symbol, hk, Literal.symbol] using h
    simp [literal?, hk, hp]
  · have hk : t.kind = .string := hk
    have hp : t.payload = some (.str s) := by simpa [Token.symbol, hk, Literal.symbol] using h
    simp [literal?, hk, hp]

theorem internText_eq_ok (value : Literal) : ∃ d, internText value c = .ok () d ∧
    d.ahead = c.ahead := by
  cases value with
  | str s => exact ⟨{ c with names := c.names.insert s }, rfl, rfl⟩
  | _ => exact ⟨c, rfl, rfl⟩

theorem kind_symbol_ne (value : Literal) : value.symbol.kind ≠ .identifier ∧
    value.symbol.kind ≠ .leftParen ∧ value.symbol.kind ≠ .funWord ∧
    value.symbol.kind ≠ .endOfInput := by
  rcases value with _ | b | _ | _ | _
  · decide
  · cases b <;> decide
  all_goals simp [Literal.symbol]

theorem literal_takes {t : Token} {value : Literal} (hc : c.ahead = value.symbol :: tail) :
    Takes (literal t value) c (fun e => e.unmarked = .literal .blank value) tail := by
  obtain ⟨d, htext, hd⟩ := internText_eq_ok (c := c) value
  rw [hc] at hd
  obtain ⟨-, -, -, hend⟩ := kind_symbol_ne value
  exact .of_eq_ok htext (advance_bind hd hend fun e he => newExpr_takes (fun _ => rfl) he)

theorem primary_takes (hg : g.Complete) : CompleteFrom primaryRank (g.bound + 1) (primary g) := by
  intro e c tail hgram hr hstop hc hn
  have hk := c.kind_current
  refine peek_bind_takes ?_
  cases e with
  | literal m v =>
    have hc : c.ahead = v.symbol :: tail := hc
    obtain ⟨hident, hopen, hfun, -⟩ := kind_symbol_ne v
    rw [hc, headKind_cons] at hk
    split
    · next h => exact absurd (hk.symm.trans h) hident
    · next h => exact absurd (hk.symm.trans h) hopen
    · next h => exact absurd (hk.symm.trans h) hfun
    · rw [literal?_of_symbol (Cursor.symbol_current hc)]
      exact literal_takes hc
  | var m x =>
    have hk : c.current.kind = .identifier := by rw [hk, hc]; rfl
    simp only [hk]
    exact identifier_bind hc fun d hd => newExpr_takes (fun _ => rfl) hd
  | group m e =>
    have hk : c.current.kind = .leftParen := by rw [hk, hc]; rfl
    simp only [hk]
    simp only [Expr.yield, List.cons_append, List.append_assoc, List.nil_append] at hc
    refine advance_bind_fixed hc rfl fun _ d hd => ?_
    refine (hg.expression e d _ hgram (Nat.zero_le _) (.of_eq_none rfl) hd
      (Cursor.length_lt_of_cons hc hd hn)).bind fun e' c' he' hc' => ?_
    exact expect_bind hc' rfl fun _ d' hd' =>
      newExprFrom_takes (fun _ => by simp [Expr.unmarked, he']) hd'
  | lambda m params body =>
    have hk : c.current.kind = .funWord := by rw [hk, hc]; rfl
    simp only [hk]
    simp only [Expr.grammatical, Bool.and_eq_true, decide_eq_true_eq] at hgram
    simp only [Expr.yield, List.cons_append] at hc
    refine advance_bind_fixed hc rfl fun _ d hd => ?_
    refine (functionRest_takes hg hgram.1 hgram.2 hd (Cursor.length_lt_of_cons hc hd hn)).bind ?_
    rintro ⟨params', body'⟩ c' ⟨rfl, hbody⟩ hc'
    exact newExprFrom_takes (fun _ => by simp [Expr.unmarked, hbody]) hc'
  | binary m l op r | logical m l op r =>
    exact absurd hr (Nat.not_le.2 (Nat.lt_of_lt_of_le op.level.rank_lt_unaryRank (by decide)))
  | _ => simp [Expr.rank, primaryRank, unaryRank, callRank] at hr

theorem arguments_takes (hg : g.Complete) {args : List Expr} (hargs : grammaticalEach args)
    (hc : c.ahead = separated (yieldEach args) ++ .fixed .rightParen :: tail)
    (hn : c.ahead.length < g.bound) :
    Takes (arguments g) c (fun args' => unmarkedEach args' = unmarkedEach args) tail := by
  refine peekKind_bind_takes ?_
  rw [ite_bind]
  suffices h : Takes (if headKind c.ahead == .rightParen then pure [] else
      commaList g fun _ => g.expression) c (fun args' => unmarkedEach args' = unmarkedEach args)
      (.fixed .rightParen :: tail) from
    h.bind fun args' d hargs' hd => expect_bind hd rfl fun _ e he => takes_pure hargs' he
  cases args with
  | nil =>
    have hc : c.ahead = .fixed .rightParen :: tail := hc
    rw [if_pos (by rw [hc]; rfl)]
    exact takes_pure rfl hc
  | cons e es =>
    have hhead : (headKind c.ahead).startsExpr := by
      rw [hc, yieldEach, separated, List.append_assoc]
      exact e.headKind_yield_append _
    rw [if_neg (by rw [beq_iff_eq]; intro h; rw [h] at hhead; cases hhead)]
    rw [yieldEach_eq_map] at hc
    refine (commaList_takes
      (I := fun done found => unmarkedEach found.reverse = unmarkedEach done) ?_ rfl hc hn).mono
      fun found hfound => by rwa [List.reverse_reverse] at hfound
    intro done e' rest found d tail hes hfound hd hnext hlen
    have he' : e'.grammatical := grammaticalEach_iff.1 hargs e' (by simp [hes])
    have hstop : Stops 0 tail := .of_eq_none (by rcases hnext with h | h <;> rw [h] <;> rfl)
    refine (hg.expression e' d tail he' (Nat.zero_le _) hstop hd hlen).mono fun a ha => ?_
    simpa [unmarkedEach_eq_map, ha] using hfound

/-! ### Chains -/

/-- The reader `first` and some turns of a loop, not more than symbols are consumed, give the
expression `e`. -/
def Spine (first : Parser Expr) (step : Expr → Parser (Option Expr)) (e : Expr) (c : Cursor)
    (tail : List Symbol) : Prop :=
  ∃ a c₁ n b d, first c = .ok a c₁ ∧ (∀ k, iterate step (n + k) a c₁ = iterate step k b d) ∧
    n + tail.length ≤ c.ahead.length ∧ b.unmarked = e.unmarked ∧ d.ahead = tail

namespace Spine

variable {first : Parser Expr} {step : Expr → Parser (Option Expr)} {e l : Expr}

theorem of_first (h : Takes first c (fun e' => e'.unmarked = e.unmarked) tail)
    (hlen : tail.length ≤ c.ahead.length) : Spine first step e c tail := by
  obtain ⟨a, d, ha, he, hd⟩ := h
  exact ⟨a, d, 0, a, d, ha, fun k => by rw [Nat.zero_add], by rwa [Nat.zero_add], he, hd⟩

theorem turn {mid : List Symbol} (h : Spine first step l c mid)
    (hstep : ∀ a d, a.unmarked = l.unmarked → d.ahead = mid →
      Takes (step a) d (fun r => ∃ b, r = some b ∧ b.unmarked = e.unmarked) tail)
    (hlen : tail.length < mid.length) : Spine first step e c tail := by
  obtain ⟨a, c₁, n, b, d, hfirst, hturns, hn, hb, hd⟩ := h
  obtain ⟨_, d', hturn, ⟨b', rfl, hb'⟩, hd'⟩ := hstep b d hb hd
  refine ⟨a, c₁, n + 1, b', d', hfirst, fun k => ?_, by omega, hb', hd'⟩
  rw [show n + 1 + k = n + (k + 1) by omega, hturns, iterate_turn hturn]

theorem takes {n : Nat} (h : Spine first step e c tail)
    (hstop : ∀ a d, d.ahead = tail → step a d = .ok none d) (hn : c.ahead.length ≤ n) :
    Takes (first >>= iterate step n) c (fun e' => e'.unmarked = e.unmarked) tail := by
  obtain ⟨a, c₁, m, b, d, hfirst, hturns, hm, hb, hd⟩ := h
  refine .of_eq_ok hfirst ⟨b, d, ?_, hb, hd⟩
  obtain ⟨k, rfl⟩ := Nat.le.dest (show m ≤ n by omega)
  rw [hturns, iterate_stop (hstop b d hd)]

end Spine

theorem suffix_takes_call (hg : g.Complete) {m : Mark} {f f' : Expr} {args : List Expr}
    (hargs : grammaticalEach args) (hf : f'.unmarked = f.unmarked)
    (hc : c.ahead = .fixed .leftParen :: separated (yieldEach args) ++ .fixed .rightParen :: tail)
    (hn : c.ahead.length < g.bound + 1) :
    Takes (suffix g f') c
      (fun r => ∃ e, r = some e ∧ e.unmarked = (Expr.call m f args).unmarked) tail := by
  refine accept_bind hc rfl fun d hd => ?_
  refine (arguments_takes hg hargs hd (Cursor.length_lt_of_cons hc hd hn)).bind
    fun args' d' hargs' hd' => ?_
  exact newExprFrom_takes (fun _ => ⟨_, rfl, by simp [Expr.unmarked, hf, hargs']⟩) hd'

theorem suffix_takes_get {m : Mark} {e e' : Expr} {x : String} (he : e'.unmarked = e.unmarked)
    (hc : c.ahead = .fixed .dot :: .name x :: tail) :
    Takes (suffix g e') c
      (fun r => ∃ f, r = some f ∧ f.unmarked = (Expr.get m e x).unmarked) tail := by
  refine accept_bind_of_ne (by simp [hc]) (accept_bind hc rfl fun d hd => ?_)
  refine identifier_bind hd fun d' hd' => ?_
  exact newExprFrom_takes (fun _ => ⟨_, rfl, by simp [Expr.unmarked, he]⟩) hd'

theorem suffix_stops (h : Stops callRank c.ahead) (e : Expr) : suffix g e c = .ok none c := by
  have hopen : headKind c.ahead ≠ .leftParen := h.ne_of_rank? rfl (Nat.le_refl _)
  have hdot : headKind c.ahead ≠ .dot := h.ne_of_rank? rfl (Nat.le_refl _)
  refine bind_eq_ok.2 ⟨false, c, accept_eq_ok_of_ne hopen, ?_⟩
  exact bind_eq_ok.2 ⟨false, c, accept_eq_ok_of_ne hdot, rfl⟩

theorem call_spine (hg : g.Complete) : ∀ (e : Expr) (tail : List Symbol), e.grammatical →
    callRank ≤ e.rank → c.ahead = e.yield ++ tail → c.ahead.length < g.bound + 1 →
    Spine (primary g) (suffix g) e c tail
  | .call m f args, tail, hgram, _, hc, hn => by
    simp only [Expr.grammatical, Bool.and_eq_true, decide_eq_true_eq] at hgram
    simp only [Expr.yield, List.append_assoc] at hc
    refine (call_spine hg f _ hgram.1.1 hgram.1.2 hc hn).turn (fun f' d hf hd => ?_) ?_
    · have hle := Cursor.length_le_of_append hc hd
      exact suffix_takes_call hg hgram.2 hf (by simpa using hd) (by omega)
    · simp only [List.length_append, List.length_cons, List.length_nil]
      omega
  | .get m o x, tail, hgram, _, hc, hn => by
    simp only [Expr.grammatical, Bool.and_eq_true, decide_eq_true_eq] at hgram
    simp only [Expr.yield, List.append_assoc] at hc
    refine (call_spine hg o _ hgram.1 hgram.2 hc hn).turn (fun o' d ho hd => ?_) ?_
    · exact suffix_takes_get ho hd
    · simp only [List.cons_append, List.nil_append, List.length_cons]
      omega
  | .literal _ _, tail, hgram, hr, hc, hn | .group _ _, tail, hgram, hr, hc, hn
  | .var _ _, tail, hgram, hr, hc, hn | .lambda _ _ _, tail, hgram, hr, hc, hn => by
    refine .of_first (primary_takes hg _ c tail hgram (Nat.le_refl _) (.primary tail) hc hn) ?_
    rw [hc, List.length_append]
    exact Nat.le_add_left _ _
  | .binary _ _ op _, _, _, hr, _, _ | .logical _ _ op _, _, _, hr, _, _ =>
    absurd hr (Nat.not_le.2 (Nat.lt_succ_of_lt op.level.rank_lt_unaryRank))
  | .unary _ _ _, _, _, hr, _, _ => absurd hr (by simp [Expr.rank, callRank, unaryRank])
  | .assign _ _ _, _, _, hr, _, _ | .set _ _ _ _, _, _, hr, _, _ =>
    absurd hr (Nat.not_succ_le_zero _)

theorem call_takes (hg : g.Complete) : CompleteFrom callRank (g.bound + 1) (call g) := by
  intro e c tail hgram hr hstop hc hn
  refine (call_spine hg e tail hgram hr hc hn).takes (fun a d hd => ?_) (Nat.le_of_lt_succ hn)
  exact suffix_stops (hd ▸ hstop) a

theorem unary_takes (hg : g.Complete) : CompleteFrom unaryRank (g.bound + 1) (unary g) := by
  intro e c tail hgram hr hstop hc hn
  refine peekKind_bind_takes ?_
  by_cases hcall : callRank ≤ e.rank
  · -- no prefix operator is ahead, so that `call` reads on
    rw [hc, e.ofKind?_headKind_yield hgram hcall]
    exact call_takes hg e c tail hgram hcall (hstop.mono (by decide)) hc hn
  · cases e with
    | unary m op e =>
      simp only [Expr.grammatical, Bool.and_eq_true, decide_eq_true_eq] at hgram
      have hc : c.ahead = .fixed op.kind :: (e.yield ++ tail) := hc
      rw [hc, headKind_cons, Symbol.kind_fixed, op.ofKind?_kind]
      refine advance_bind_fixed hc (by cases op <;> rfl) fun t d hd => ?_
      refine (hg.unary e d tail hgram.1 hgram.2 hstop hd (Cursor.length_lt_of_cons hc hd hn)).bind
        fun e' d' he' hd' => ?_
      exact newExpr_takes (fun _ => by simp [Expr.unmarked, he']) hd'
    | binary m l op r | logical m l op r =>
      exact absurd hr (Nat.not_le.2 op.level.rank_lt_unaryRank)
    | assign | set => exact absurd hr (Nat.not_succ_le_zero _)
    | _ => exact absurd (by simp [Expr.rank, callRank, primaryRank]) hcall

theorem chainStep_takes {operand : Parser Expr} {op : Operator} {m : Mark} {l l' r : Expr}
    {bound : Nat} (ho : CompleteFrom (op.level.rank + 1) bound operand) (hr : r.grammatical)
    (hrank : op.level.rank < r.rank) (hstop : Stops (op.level.rank + 1) tail)
    (hl : l'.unmarked = l.unmarked) (hc : c.ahead = .fixed op.kind :: (r.yield ++ tail))
    (hn : c.ahead.length < bound) :
    Takes (chainStep op.level operand l') c
      (fun e => ∃ e', e = some e' ∧ e'.unmarked = (op.node m l r).unmarked) tail := by
  refine peekKind_bind_takes ?_
  rw [hc, headKind_cons, Symbol.kind_fixed, op.operator?_kind]
  refine advance_bind_fixed hc op.isMark_kind fun t d hd => ?_
  have hlen := Cursor.length_lt_of_cons hc hd (Nat.lt_succ_of_lt hn)
  refine (ho r d tail hr hrank hstop hd hlen).bind fun r' d' hr' hd' => ?_
  exact newExpr_takes (fun _ => ⟨_, rfl, by simp [hl, hr']⟩) hd'

theorem chainStep_stops {level : Level} {operand : Parser Expr} (h : Stops level.rank c.ahead)
    (e : Expr) : chainStep level operand e c = .ok none c := by
  rw [chainStep, peekKind_bind, c.kind_current, h.operator?_eq_none]
  rfl

/-- The left spine of an expression: as long as its node is one of the level, a turn of the loop
makes the node from the spine of the left operand. -/
theorem chain_spine {level : Level} {operand : Parser Expr} {bound : Nat}
    (ho : CompleteFrom (level.rank + 1) bound operand) (e : Expr) (tail : List Symbol)
    (hgram : e.grammatical) (hr : level.rank ≤ e.rank) (hstop : Stops (level.rank + 1) tail)
    (hc : c.ahead = e.yield ++ tail) (hn : c.ahead.length < bound) :
    Spine operand (chainStep level operand) e c tail := by
  rcases Nat.lt_or_eq_of_le hr with hr | hr
  · refine .of_first (ho e c tail hgram hr hstop hc hn) ?_
    rw [hc, List.length_append]
    exact Nat.le_add_left _ _
  · obtain ⟨m, l, op, r, he, rfl⟩ := Expr.eq_node_of_rank_eq hr.symm
    rw [he, op.grammatical_node] at hgram
    simp only [Bool.and_eq_true, decide_eq_true_eq] at hgram
    obtain ⟨⟨⟨hl, hr⟩, hlrank⟩, hrrank⟩ := hgram
    rw [he, op.yield_node, List.append_assoc, List.cons_append] at hc
    have hspine := chain_spine ho l _ hl hlrank (.operator op _) hc hn
    rw [he]
    refine hspine.turn (fun l' d hl' hd => ?_) ?_
    · have hle := Cursor.length_le_of_append hc hd
      exact chainStep_takes ho hr hrrank hstop hl' hd (by omega)
    · rw [List.length_cons, List.length_append]
      omega
termination_by sizeOf e
decreasing_by
  rw [he]
  cases op <;> simp [Operator.node] <;> omega

theorem chain_takes (hg : g.Complete) {levels : List Level} (hl : levels <:+ Level.all) :
    CompleteFrom (chainRank levels) (g.bound + 1) (chain g levels) := by
  induction levels with
  | nil => exact unary_takes hg
  | cons level levels ih =>
    intro e c tail hgram hr hstop hc hn
    obtain ⟨hlevel, hrank⟩ := chainRank_of_suffix hl
    have ih := ih ((List.suffix_cons _ _).trans hl)
    rw [hrank] at ih
    rw [hlevel] at hr hstop
    refine (chain_spine ih e tail hgram hr (hstop.mono (Nat.le_succ _)) hc hn).takes
      (fun a d hd => ?_) (Nat.le_of_lt_succ hn)
    exact chainStep_stops (hd ▸ hstop) a

/-- Without a target before it, an expression is read as a chain. -/
theorem assignment_takes_chain (hg : g.Complete) {e : Expr} (hgram : e.grammatical)
    (hr : 1 ≤ e.rank) (hstop : Stops 0 tail) (hc : c.ahead = e.yield ++ tail)
    (hn : c.ahead.length < g.bound + 1) :
    Takes (assignment g) c (fun e' => e'.unmarked = e.unmarked) tail := by
  refine (chain_takes hg (List.suffix_refl _) e c tail hgram hr (hstop.mono (Nat.zero_le _)) hc
    hn).bind fun e' d he' hd => peekKind_bind_takes ?_
  have hne : headKind d.ahead ≠ .equal := hd ▸ hstop.ne_of_rank? rfl (Nat.le_refl _)
  rw [if_neg (by simpa using hne)]
  exact takes_pure he' hd

/-- A target is read as a chain, and its assignment after the value. -/
theorem assignment_takes_assign (hg : g.Complete) {target value e : Expr}
    (hgramt : target.grammatical) (hgramv : value.grammatical) (hr : 1 ≤ target.rank)
    (hassign : ∀ t v d equals, t.unmarked = target.unmarked → v.unmarked = value.unmarked →
      Takes (assign equals t v) d (fun e' => e'.unmarked = e.unmarked) d.ahead)
    (hstop : Stops 0 tail) (hc : c.ahead = target.yield ++ .fixed .equal :: (value.yield ++ tail))
    (hn : c.ahead.length < g.bound + 1) :
    Takes (assignment g) c (fun e' => e'.unmarked = e.unmarked) tail := by
  have hequal : Stops 1 (.fixed .equal :: (value.yield ++ tail)) := by
    rintro _ ⟨⟩
    exact Nat.zero_lt_one
  refine (chain_takes hg (List.suffix_refl _) target c _ hgramt hr hequal hc hn).bind
    fun t d ht hd => peekKind_bind_takes ?_
  have hle := Cursor.length_le_of_append hc hd
  rw [hd, headKind_cons]
  refine advance_bind_fixed hd rfl fun equals d' hd' => ?_
  have hlen := Cursor.length_lt_of_cons hd hd' (Nat.lt_of_le_of_lt hle hn)
  refine (hg.expression value d' tail hgramv (Nat.zero_le _) hstop hd' hlen).bind
    fun v e hv he => ?_
  exact he ▸ hassign t v e _ ht hv

theorem assignment_takes (hg : g.Complete) : CompleteFrom 0 (g.bound + 1) (assignment g) := by
  intro e c tail hgram hr hstop hc hn
  cases e with
  | assign m x v =>
    have hv : v.grammatical := hgram
    refine assignment_takes_assign hg (show (Expr.var m x).grammatical from rfl) hv
      (show 1 ≤ primaryRank by decide) (fun t v' d equals ht hv => ?_) hstop hc hn
    cases t with
    | var m' x' =>
      cases ht
      exact .of_eq_ok rfl (newExpr_takes (fun _ => by simp [Expr.unmarked, hv]) rfl)
    | _ => cases ht
  | set m o x v =>
    simp only [Expr.grammatical, Bool.and_eq_true, decide_eq_true_eq] at hgram
    have hget : (Expr.get m o x).grammatical := by simp [Expr.grammatical, hgram]
    refine assignment_takes_assign hg hget hgram.2 (show 1 ≤ callRank by decide)
      (fun t v' d equals ht hv => ?_) hstop (by simpa [Expr.yield] using hc) hn
    cases t with
    | get m' o' x' =>
      simp only [Expr.unmarked, Expr.get.injEq, true_and] at ht
      obtain ⟨ho, rfl⟩ := ht
      exact .of_eq_ok rfl (newExpr_takes (fun _ => by simp [Expr.unmarked, hv, ho]) rfl)
    | _ => cases ht
  | binary m l op r | logical m l op r =>
    exact assignment_takes_chain hg hgram op.level.rank_pos hstop hc hn
  | _ =>
    have hr : 1 ≤ primaryRank ∧ 1 ≤ callRank ∧ 1 ≤ unaryRank := by decide
    exact assignment_takes_chain hg hgram (by simp [Expr.rank, hr]) hstop hc hn

/-! ### Statements -/

section Statements

variable {m : Mark} {start : Span}

/-- A full expression before something that ends it. -/
theorem expression_takes (hg : g.Complete) {e : Expr} (hgram : e.grammatical)
    (hend : (headKind tail).rank? = none) (hc : c.ahead = e.yield ++ tail)
    (hn : c.ahead.length < g.bound) :
    Takes g.expression c (fun e' => e'.unmarked = e.unmarked) tail :=
  hg.expression e c tail hgram (Nat.zero_le _) (.of_eq_none hend) hc hn

theorem varDecl_takes (hg : g.Complete) {x : String} {value : Option Expr}
    (hgram : grammaticalOption value)
    (hc : c.ahead = .name x :: (yieldInitial value ++ .fixed .semicolon :: tail))
    (hn : c.ahead.length < g.bound) :
    Takes (varDecl g start) c (fun s => s.unmarked = (Stmt.varDecl m x value).unmarked) tail := by
  refine identifier_bind hc fun d hd => ?_
  have hlen := Cursor.length_lt_of_cons hc hd (Nat.lt_succ_of_lt hn)
  cases value with
  | none =>
    refine accept_bind_of_ne (by simp [hd, yieldInitial]) (.of_eq_ok rfl ?_)
    exact expect_bind hd rfl fun _ d' hd' => newStmt_takes (fun _ => rfl) hd'
  | some e =>
    refine accept_bind hd rfl fun d' hd' => ?_
    have hlen' := Cursor.length_lt_of_cons hd hd' (Nat.lt_succ_of_lt hlen)
    refine Takes.bind (.map (Q := fun value => unmarkedOption value = some e.unmarked)
      ((expression_takes hg hgram rfl hd' hlen').mono fun e' he' => congrArg some he'))
      fun value c' hvalue hc' => ?_
    exact expect_bind hc' rfl fun _ e' he' =>
      newStmt_takes (fun _ => congrArg (Stmt.varDecl .blank x) hvalue) he'

theorem funDecl_takes (hg : g.Complete) {x : String} {params : List String} {body : List Stmt}
    (hparams : params.length ≤ maxParameters) (hbody : grammaticalAll body)
    (hc : c.ahead = .name x :: (functionYield params (yieldAll body) ++ tail))
    (hn : c.ahead.length < g.bound) :
    Takes (funDecl g start) c
      (fun s => s.unmarked = (Stmt.funDecl m x params body).unmarked) tail := by
  refine identifier_bind hc fun d hd => ?_
  have hlen := Cursor.length_lt_of_cons hc hd (Nat.lt_succ_of_lt hn)
  refine (functionRest_takes hg hparams hbody hd hlen).bind ?_
  rintro ⟨params', body'⟩ d' ⟨rfl, hbody'⟩ hd'
  exact newStmt_takes (fun _ => congrArg (Stmt.funDecl .blank x params') hbody') hd'

theorem classDecl_takes {x : String}
    (hc : c.ahead = .name x :: .fixed .leftBrace :: .fixed .rightBrace :: tail) :
    Takes (classDecl start) c (fun s => s.unmarked = (Stmt.classDecl m x).unmarked) tail :=
  identifier_bind hc fun _ h₁ => expect_bind h₁ rfl fun _ _ h₂ => expect_bind h₂ rfl fun _ _ h₃ =>
    newStmt_takes (fun _ => rfl) h₃

theorem print_takes (hg : g.Complete) {e : Expr} (hgram : e.grammatical)
    (hc : c.ahead = e.yield ++ .fixed .semicolon :: tail) (hn : c.ahead.length < g.bound) :
    Takes (print g start) c (fun s => s.unmarked = (Stmt.print m e).unmarked) tail :=
  (expression_takes hg hgram rfl hc hn).bind fun _ _ he hd => expect_bind hd rfl fun _ _ hd' =>
    newStmt_takes (fun _ => congrArg (Stmt.print .blank) he) hd'

theorem block_takes (hg : g.Complete) {body : List Stmt} (hbody : grammaticalAll body)
    (hc : c.ahead = yieldAll body ++ .fixed .rightBrace :: tail) (hn : c.ahead.length < g.bound) :
    Takes (block g start) c (fun s => s.unmarked = (Stmt.block m body).unmarked) tail :=
  (blockBody_takes hg hbody hc hn).bind fun _ _ hbody' hd =>
    newStmt_takes (fun _ => congrArg (Stmt.block .blank) hbody') hd

/-- The condition of an `if` or a `while`, in parentheses. -/
theorem condition_bind (hg : g.Complete) {what what' : Expected} {e : Expr} {f : Expr → Parser α}
    {P : α → Prop} {ss : List Symbol} (hgram : e.grammatical)
    (hc : c.ahead = .fixed .leftParen :: (e.yield ++ .fixed .rightParen :: ss))
    (hn : c.ahead.length < g.bound)
    (hf : ∀ e' d, e'.unmarked = e.unmarked → d.ahead = ss → d.ahead.length < g.bound →
      Takes (f e') d P tail) :
    Takes (do
      let _ ← expect .leftParen what
      let condition ← g.expression
      let _ ← expect .rightParen what'
      f condition) c P tail := by
  refine expect_bind hc rfl fun _ d hd => ?_
  have hlen := Cursor.length_lt_of_cons hc hd (Nat.lt_succ_of_lt hn)
  refine (expression_takes hg hgram rfl hd hlen).bind fun e' c' he' hc' => ?_
  have hle := Cursor.length_le_of_append hd hc'
  refine expect_bind hc' rfl fun _ d' hd' => hf e' d' he' hd' ?_
  exact Cursor.length_lt_of_cons hc' hd' (Nat.lt_succ_of_lt (Nat.lt_of_le_of_lt hle hlen))

theorem ifElse_takes (hg : g.Complete) {e : Expr} {t : Stmt} {b : Option Stmt}
    (hgram : (Stmt.ifElse m e t b).grammatical)
    (helse : (Stmt.ifElse m e t b).endsOpen → headKind tail ≠ .elseWord)
    (hc : c.ahead = .fixed .leftParen :: (e.yield ++ .fixed .rightParen :: (t.yield ++
      (yieldElse b ++ tail)))) (hn : c.ahead.length < g.bound) :
    Takes (ifElse g start) c (fun s => s.unmarked = (Stmt.ifElse m e t b).unmarked) tail := by
  simp only [Stmt.grammatical, Bool.and_eq_true, Bool.not_eq_true', Bool.and_eq_false_iff] at hgram
  obtain ⟨⟨⟨hgrame, hgramt⟩, hgramb⟩, hclosed⟩ := hgram
  refine condition_bind hg hgrame hc hn fun e' d he' hd hlen => ?_
  have hopen : t.endsOpen → headKind (yieldElse b ++ tail) ≠ .elseWord := by
    intro hopen
    cases b with
    | none => exact helse rfl
    | some b => simp [hopen] at hclosed
  refine (hg.declaration t d _ hgramt hopen hd hlen).bind fun t' d' ht' hd' => ?_
  have hlen' := Nat.lt_of_le_of_lt (Cursor.length_le_of_append hd hd') hlen
  cases b with
  | none =>
    refine accept_bind_of_ne (hd' ▸ helse rfl) (.of_eq_ok rfl ?_)
    exact newStmt_takes (fun _ => by simp [Stmt.unmarked, unmarkedElse, he', ht']) hd'
  | some b =>
    refine accept_bind hd' rfl fun c' hc' => ?_
    have hlen'' := Cursor.length_lt_of_cons hd' hc' (Nat.lt_succ_of_lt hlen')
    refine Takes.bind (.map (Q := fun b' => unmarkedElse b' = some b.unmarked)
      ((hg.declaration b c' tail hgramb helse hc' hlen'').mono fun b' hb' => congrArg some hb'))
      fun b' c'' hb' hc'' => ?_
    exact newStmt_takes (fun _ => by simp [Stmt.unmarked, unmarkedElse, he', ht', hb']) hc''

theorem whileDo_takes (hg : g.Complete) {e : Expr} {b : Stmt} (hgrame : e.grammatical)
    (hgramb : b.grammatical) (helse : b.endsOpen → headKind tail ≠ .elseWord)
    (hc : c.ahead = .fixed .leftParen :: (e.yield ++ .fixed .rightParen :: (b.yield ++ tail)))
    (hn : c.ahead.length < g.bound) :
    Takes (whileDo g start) c (fun s => s.unmarked = (Stmt.whileDo m e b).unmarked) tail := by
  refine condition_bind hg hgrame hc hn fun e' d he' hd hlen => ?_
  refine (hg.declaration b d tail hgramb helse hd hlen).bind fun b' d' hb' hd' => ?_
  exact newStmt_takes (fun _ => by simp [Stmt.unmarked, he', hb']) hd'

theorem operand?_takes (hg : g.Complete) {value : Option Expr} (hgram : grammaticalOption value)
    (hc : c.ahead = yieldOption value ++ .fixed .semicolon :: tail)
    (hn : c.ahead.length < g.bound) :
    Takes (operand? g) c (fun value' => unmarkedOption value' = unmarkedOption value)
      (.fixed .semicolon :: tail) := by
  refine peekKind_bind_takes ?_
  cases value with
  | none =>
    rw [if_pos (by rw [hc]; rfl)]
    exact takes_pure rfl hc
  | some e =>
    have hc : c.ahead = e.yield ++ .fixed .semicolon :: tail := hc
    have hhead := e.headKind_yield_append (.fixed .semicolon :: tail)
    rw [← hc] at hhead
    rw [if_neg (by rw [beq_iff_eq]; intro h; rw [h] at hhead; cases hhead)]
    exact .map ((expression_takes hg hgram rfl hc hn).mono fun e' he' => congrArg some he')

theorem returns_takes (hg : g.Complete) {value : Option Expr} (hgram : grammaticalOption value)
    (hc : c.ahead = yieldOption value ++ .fixed .semicolon :: tail)
    (hn : c.ahead.length < g.bound) :
    Takes (returns g start) c (fun s => s.unmarked = (Stmt.returns m value).unmarked) tail :=
  (operand?_takes hg hgram hc hn).bind fun _ _ hvalue hd => expect_bind hd rfl fun _ _ hd' =>
    newStmt_takes (fun _ => congrArg (Stmt.returns .blank) hvalue) hd'

theorem breaks_takes (hg : g.Complete) {value : Option Expr} (hgram : grammaticalOption value)
    (hc : c.ahead = yieldOption value ++ .fixed .semicolon :: tail)
    (hn : c.ahead.length < g.bound) :
    Takes (breaks g start) c (fun s => s.unmarked = (Stmt.breaks m value).unmarked) tail :=
  (operand?_takes hg hgram hc hn).bind fun _ _ hvalue hd => expect_bind hd rfl fun _ _ hd' =>
    newStmt_takes (fun _ => congrArg (Stmt.breaks .blank) hvalue) hd'

theorem expressionStmt_takes (hg : g.Complete) {e : Expr} (hgram : e.grammatical)
    (hc : c.ahead = e.yield ++ .fixed .semicolon :: tail) (hn : c.ahead.length < g.bound + 1) :
    Takes (Parser.expression g start) c
      (fun s => s.unmarked = (Stmt.expression m e).unmarked) tail :=
  (assignment_takes hg e c _ hgram (Nat.zero_le _) (.of_eq_none rfl) hc hn).bind
    fun _ _ he hd => expect_bind hd rfl fun _ _ hd' =>
      newStmt_takes (fun _ => congrArg (Stmt.expression .blank) he) hd'

theorem declaration_takes_word {kind : Kind} {p : Span → Parser Stmt} {mid : List Symbol}
    {Q : Stmt → Prop} (hc : c.ahead = .fixed kind :: mid) (hk : kind.isMark)
    (hword : afterWord? g kind (headKind mid) = some p)
    (hp : ∀ d, d.ahead = mid → ∀ start, Takes (p start) d Q tail) :
    Takes (declaration g) c Q tail := by
  refine peek_bind_takes (.of_eq_ok (a := c.nextKind) (d := c) rfl ?_)
  rw [c.nextKind_eq, c.kind_current, hc, headKind_cons, Symbol.kind_fixed, List.tail_cons, hword]
  exact advance_bind_fixed hc hk fun t d hd => hp d hd _

theorem afterWord?_eq_none {ss : List Symbol} (h : StartsExpr ss) :
    afterWord? g (headKind ss) (headKind ss.tail) = none := by
  obtain ⟨s, rest, rfl, hs, hfun⟩ := h
  rw [headKind_cons, List.tail_cons, afterWord?.eq_def]
  split
  -- `fun` is the only word that starts an expression and a statement, but no name follows then
  case h_3 hk =>
    obtain ⟨s', rest', rfl, hnext⟩ := hfun hk
    simp [hnext]
  case h_10 => rfl
  all_goals
    rename_i hk
    rw [hk] at hs
    cases hs

theorem declaration_takes (hg : g.Complete) : CompleteStmt (g.bound + 1) (declaration g) := by
  intro s c tail hgram helse hc hn
  cases s with
  | expression m e =>
    have hc : c.ahead = e.yield ++ .fixed .semicolon :: tail := by simpa [Stmt.yield] using hc
    refine peek_bind_takes (.of_eq_ok (a := c.nextKind) (d := c) rfl ?_)
    rw [c.nextKind_eq, c.kind_current, afterWord?_eq_none (hc ▸ e.startsExpr_yield.append _)]
    exact expressionStmt_takes hg hgram hc hn
  | print m e =>
    have hc : c.ahead = .fixed .printWord :: (e.yield ++ .fixed .semicolon :: tail) := by
      simpa [Stmt.yield] using hc
    exact declaration_takes_word hc rfl rfl fun d hd _ =>
      print_takes hg hgram hd (Cursor.length_lt_of_cons hc hd hn)
  | varDecl m x value =>
    have hc : c.ahead = .fixed .varWord :: .name x :: (yieldInitial value ++
        .fixed .semicolon :: tail) := by simpa [Stmt.yield] using hc
    exact declaration_takes_word hc rfl rfl fun d hd _ =>
      varDecl_takes hg hgram hd (Cursor.length_lt_of_cons hc hd hn)
  | block m body =>
    have hc : c.ahead = .fixed .leftBrace :: (yieldAll body ++ .fixed .rightBrace :: tail) := by
      simpa [Stmt.yield] using hc
    exact declaration_takes_word hc rfl rfl fun d hd _ =>
      block_takes hg hgram hd (Cursor.length_lt_of_cons hc hd hn)
  | ifElse m e t b =>
    have hc : c.ahead = .fixed .ifWord :: .fixed .leftParen :: (e.yield ++ .fixed .rightParen ::
        (t.yield ++ (yieldElse b ++ tail))) := by simpa [Stmt.yield] using hc
    exact declaration_takes_word hc rfl rfl fun d hd _ =>
      ifElse_takes hg hgram helse hd (Cursor.length_lt_of_cons hc hd hn)
  | whileDo m e b =>
    have hc : c.ahead = .fixed .whileWord :: .fixed .leftParen :: (e.yield ++
        .fixed .rightParen :: (b.yield ++ tail)) := by simpa [Stmt.yield] using hc
    simp only [Stmt.grammatical, Bool.and_eq_true] at hgram
    exact declaration_takes_word hc rfl rfl fun d hd _ =>
      whileDo_takes hg hgram.1 hgram.2 helse hd (Cursor.length_lt_of_cons hc hd hn)
  | funDecl m x params body =>
    have hc : c.ahead = .fixed .funWord :: .name x :: (functionYield params (yieldAll body) ++
        tail) := by simpa [Stmt.yield] using hc
    simp only [Stmt.grammatical, Bool.and_eq_true, decide_eq_true_eq] at hgram
    exact declaration_takes_word hc rfl rfl fun d hd _ =>
      funDecl_takes hg hgram.1 hgram.2 hd (Cursor.length_lt_of_cons hc hd hn)
  | returns m value =>
    have hc : c.ahead = .fixed .returnWord :: (yieldOption value ++ .fixed .semicolon :: tail) := by
      simpa [Stmt.yield] using hc
    exact declaration_takes_word hc rfl rfl fun d hd _ =>
      returns_takes hg hgram hd (Cursor.length_lt_of_cons hc hd hn)
  | breaks m value =>
    have hc : c.ahead = .fixed .breakWord :: (yieldOption value ++ .fixed .semicolon :: tail) := by
      simpa [Stmt.yield] using hc
    exact declaration_takes_word hc rfl rfl fun d hd _ =>
      breaks_takes hg hgram hd (Cursor.length_lt_of_cons hc hd hn)
  | classDecl m x =>
    have hc : c.ahead = .fixed .classWord :: .name x :: .fixed .leftBrace :: .fixed .rightBrace ::
        tail := by simpa [Stmt.yield] using hc
    exact declaration_takes_word hc rfl rfl fun d hd _ => classDecl_takes hd

end Statements

/-! ### Programs -/

theorem entry_complete (n : Nat) : (entry n).Complete := by
  induction n with
  | zero =>
    exact ⟨fun _ _ _ _ _ _ _ hn => absurd hn (Nat.not_lt_zero _),
      fun _ _ _ _ _ _ _ hn => absurd hn (Nat.not_lt_zero _),
      fun _ _ _ _ _ _ hn => absurd hn (Nat.not_lt_zero _)⟩
  | succ n ih => exact ⟨assignment_takes ih, unary_takes ih, declaration_takes ih⟩

/-- A program is read up to the end marker. -/
theorem program_takes {trees : List Stmt} {eof : Symbol} (htrees : grammaticalAll trees)
    (heof : eof.kind = .endOfInput) (hc : c.ahead = yieldAll trees ++ [eof]) :
    Takes program c (fun ss => unmarkedAll ss = unmarkedAll trees) [eof] := by
  have hlen : c.ahead.length ≤ c.rest.length := Nat.le_of_eq c.length_rest.symm
  have hp := declaration_takes (entry_complete c.rest.length)
  refine (statements_takes (· == .endOfInput) hp (fun s => ?_) (by simp [heof]) (by simp [heof])
    htrees hc hlen (Nat.lt_succ_of_le hlen)).bind (x := iterate _ _ _)
    fun found d hfound hd => takes_pure hfound hd
  obtain ⟨x, xs, hx, -, hend, -⟩ := s.yield_eq_cons
  simp [hx, hend]

end Parser

/-! ### The theorem -/

/-- **Every tree of the grammar can be written.** When tokens are what trees of the grammar are
written with, parsing them succeeds and gives these trees in order, up to marks. -/
theorem parse_complete {trees : List Stmt} {ts : List Token} {eof : Token}
    (htrees : grammaticalAll trees) (hts : ts.map Token.symbol = yieldAll trees) (heof : eof.isEnd)
    (names : NameTable) :
    ∃ program names', parse names (ts ++ [eof]) = (.ok program, names') ∧
      unmarkedAll program.statements = unmarkedAll trees := by
  have hc : (Cursor.ofTokens names (ts ++ [eof])).ahead = yieldAll trees ++ [eof.symbol] := by
    simp [Cursor.ofTokens, Cursor.ahead, hts]
  have heof : eof.symbol.kind = .endOfInput := by simpa [Token.isEnd] using heof
  obtain ⟨ss, d, hprogram, hss, -⟩ := Parser.program_takes htrees heof hc
  exact ⟨⟨ss, d.exprCount, d.stmtCount, d.targets.reverse⟩, d.names, by rw [parse, hprogram], hss⟩

/-- A loop in the branch of an `if` with an `else`: a product in its condition, and in its body an
assignment to a property of what a function without a name returns. -/
def nestedTree : Stmt :=
  let lambda : Expr := .lambda .blank ["x"] [.returns .blank (some (.var .blank "x"))]
  .ifElse .blank (.var .blank "a")
    (.whileDo .blank (.binary .blank (.var .blank "b") .sub
        (.binary .blank (.unary .blank .negate (.literal .blank .nil)) .mul (.var .blank "c")))
      (.expression .blank (.set .blank (.call .blank lambda [.var .blank "y"]) "p"
        (.literal .blank (.int 1)))))
    (some (.breaks .blank none))

/-- The tokens of `nestedTree`. -/
def treeTokens : List Token :=
  let token (kind : Kind) (lexeme : String) : Token := ⟨kind, lexeme, none, 1, .point 0⟩
  [token .ifWord "if", token .leftParen "(", token .identifier "a", token .rightParen ")",
    token .whileWord "while", token .leftParen "(", token .identifier "b", token .minus "-",
    token .minus "-", token .nilWord "nil", token .star "*", token .identifier "c",
    token .rightParen ")", token .funWord "fun", token .leftParen "(", token .identifier "x",
    token .rightParen ")", token .leftBrace "\x7b", token .returnWord "return",
    token .identifier "x", token .semicolon ";", token .rightBrace "\x7d", token .leftParen "(",
    token .identifier "y", token .rightParen ")", token .dot ".", token .identifier "p",
    token .equal "=", ⟨.integer, "1", some (.int 1), 1, .point 0⟩, token .semicolon ";",
    token .elseWord "else", token .breakWord "break", token .semicolon ";"]

theorem parse_complete_nestedTree : ∃ program names',
    parse .fresh (treeTokens ++ [.endOfInput 1 0]) = (.ok program, names') ∧
      unmarkedAll program.statements = unmarkedAll [nestedTree] :=
  parse_complete (by decide) rfl rfl .fresh

end Lox
