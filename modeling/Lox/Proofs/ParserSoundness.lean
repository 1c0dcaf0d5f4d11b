import Lox.Proofs.Reading

/-!
# What is parsed was written

Whatever a reader for a rule of the grammar accepts, it consumes exactly the symbols of the tree
that it gives, and the tree is one of the grammar.

* `Entry.Sound`: this, for the readers that are entered again;
* one lemma for each reader, over sound ones;
* `program_ok`: the program of a token list whose only end marker is its last token.
-/

namespace Lox

/-! ### Soundness -/

/-- What a reader of expressions of at least a rank accepts is one of them. -/
def Parser.SoundFrom (rank : Nat) (p : Parser Expr) : Prop :=
  ∀ c e d, p c = .ok e d → c.Reads e.yield d ∧ e.grammatical ∧ rank ≤ e.rank

/-- What a reader of statements accepts after the symbols `first` is one, and no `else` is left
ahead to which an `if` at its end is open. -/
def Parser.SoundAfter (first : List Symbol) (p : Parser Stmt) : Prop :=
  ∀ c s d, p c = .ok s d → (∃ ss, s.yield = first ++ ss ∧ c.Reads ss d) ∧ s.grammatical ∧
    (s.endsOpen → d.current.kind ≠ .elseWord)

namespace Parser

/-- The readers that are entered again are sound. -/
structure Entry.Sound (g : Entry) : Prop where
  expression : SoundFrom 0 g.expression
  unary : SoundFrom unaryRank g.unary
  declaration : SoundAfter [] g.declaration

variable {α : Type} {g : Entry} {c d : Cursor}

/-! ### Lists -/

theorem commaList_ok {Y : α → List Symbol} {I : List α → Prop} {item : List α → Parser α}
    (hitem : ∀ found c x d, I found → item found c = .ok x d → c.Reads (Y x) d ∧ I (x :: found))
    (hnil : I []) {xs : List α} (h : commaList g item c = .ok xs d) :
    c.Reads (separated (xs.map Y)) d ∧ I xs.reverse := by
  obtain ⟨x, c₁, hx, h⟩ := bind_eq_ok.1 h
  obtain ⟨found, c₂, hloop, h⟩ := bind_eq_ok.1 h
  obtain ⟨rfl, rfl⟩ := pure_eq_ok.1 h
  obtain ⟨hread, hI⟩ := hitem [] c x c₁ hnil hx
  let P (found : List α) (d : Cursor) : Prop :=
    found ≠ [] ∧ c.Reads (separated (found.reverse.map Y)) d ∧ I found
  have hP : P found c₂ := by
    refine iterate_ok (P := P) (fun found more c' d' hfound hstep => ?_)
      (fun found c' d' hfound hstep => ?_) ⟨by simp, by simpa [separated] using hread, hI⟩ hloop
    · obtain ⟨hne, hread, hI⟩ := hfound
      rcases accept_bind_ok rfl hstep with ⟨e, hcomma, hstep⟩ | ⟨-, hstep⟩
      · obtain ⟨y, _, hy, hstep⟩ := bind_eq_ok.1 hstep
        obtain ⟨⟨⟩, rfl⟩ := pure_eq_ok.1 hstep
        obtain ⟨hready, hIy⟩ := hitem found e y _ hI hy
        refine ⟨by simp, ?_, hIy⟩
        rw [List.reverse_cons, List.map_append, List.map_singleton,
          separated_concat (by simpa using hne)]
        exact hread.trans (hcomma.trans hready)
      · cases (pure_eq_ok.1 hstep).1
    · rcases accept_bind_ok rfl hstep with ⟨e, -, hstep⟩ | ⟨-, hstep⟩
      · obtain ⟨y, _, -, hstep⟩ := bind_eq_ok.1 hstep
        cases (pure_eq_ok.1 hstep).1
      · obtain ⟨-, rfl⟩ := pure_eq_ok.1 hstep
        exact hfound
  rw [List.reverse_reverse]
  exact hP.2

/-- A loop over statements reads some of them. It stops at a symbol that ends it, or after `n`
turns, each of which consumed a token. -/
theorem statements_ok (ends : Kind → Bool) {p : Parser Stmt} (hp : SoundAfter [] p) {n : Nat}
    {found : List Stmt} (h : iterate (fun found => do
        if ends (← peekKind) then return none else return some ((← p) :: found)) n [] c =
      .ok found d) :
    c.Reads (yieldAll found.reverse) d ∧ grammaticalAll found.reverse ∧
      (ends d.current.kind ∨ n + d.rest.length ≤ c.rest.length) := by
  let P (k : Nat) (found : List Stmt) (d : Cursor) : Prop :=
    c.Reads (yieldAll found.reverse) d ∧ (∀ s ∈ found, s.grammatical) ∧
      k + d.rest.length ≤ c.rest.length
  have hP := iterate_count_ok (P := P) (k := 0)
    (Q := fun found d => P 0 found d ∧ ends d.current.kind)
    (fun k found more c' d' hfound hstep => ?_) (fun k found c' d' hfound hstep => ?_)
    ⟨.of_rest_eq rfl, by simp, by simp⟩ h
  · rw [grammaticalAll_iff]
    rcases hP with ⟨⟨hread, hgram, -⟩, hends⟩ | ⟨hread, hgram, hlen⟩
    · exact ⟨hread, by simpa using hgram, .inl hends⟩
    · exact ⟨hread, by simpa using hgram, .inr (by omega)⟩
  · obtain ⟨hread, hgram, hlen⟩ := hfound
    rw [peekKind_bind] at hstep
    split at hstep
    · cases (pure_eq_ok.1 hstep).1
    · obtain ⟨s, _, hs, hstep⟩ := bind_eq_ok.1 hstep
      obtain ⟨⟨⟩, rfl⟩ := pure_eq_ok.1 hstep
      obtain ⟨⟨ss, rfl, hreads⟩, hgrams, -⟩ := hp _ _ _ hs
      refine ⟨?_, by simpa using ⟨hgrams, hgram⟩, ?_⟩
      · rw [yieldAll_reverse_cons]
        exact hread.trans hreads
      · -- a statement is written with at least one symbol, so that the turn consumed a token
        have hcons := hreads.length_rest
        obtain ⟨x, xs, hx, -⟩ := s.yield_eq_cons
        rw [hx, List.length_cons] at hcons
        omega
  · rw [peekKind_bind] at hstep
    split at hstep
    · next hkind =>
      obtain ⟨-, rfl⟩ := pure_eq_ok.1 hstep
      obtain ⟨hread, hgram, hlen⟩ := hfound
      exact ⟨⟨hread, hgram, by omega⟩, hkind⟩
    · obtain ⟨s, _, -, hstep⟩ := bind_eq_ok.1 hstep
      cases (pure_eq_ok.1 hstep).1

theorem blockBody_ok (hg : g.Sound) {body : List Stmt} (h : blockBody g c = .ok body d) :
    c.Reads (yieldAll body ++ [.fixed .rightBrace]) d ∧ grammaticalAll body := by
  obtain ⟨found, c₁, hloop, h⟩ := bind_eq_ok.1 h
  obtain ⟨_, c₂, hbrace, h⟩ := expect_bind_ok rfl h
  obtain ⟨rfl, rfl⟩ := pure_eq_ok.1 h
  obtain ⟨hread, hgram, -⟩ := statements_ok
    (fun kind => kind == .rightBrace || kind == .endOfInput) hg.declaration hloop
  exact ⟨hread.trans hbrace, hgram⟩

theorem parameter_ok {found : List String} {x : String} (h : parameter found c = .ok x d) :
    c.Reads [.name x] d ∧ (x :: found).length ≤ maxParameters := by
  rw [parameter] at h
  split at h
  · rw [peek_bind] at h
    exact absurd h failAt_ne_ok
  · next hlt => exact ⟨identifier_ok h, Nat.lt_of_not_le hlt⟩

theorem functionRest_ok (hg : g.Sound) {params : List String} {body : List Stmt}
    (h : functionRest g c = .ok (params, body) d) :
    c.Reads (functionYield params (yieldAll body)) d ∧ params.length ≤ maxParameters ∧
      grammaticalAll body := by
  obtain ⟨_, c₁, hopen, h⟩ := expect_bind_ok rfl h
  rw [peekKind_bind, ite_bind] at h
  obtain ⟨params, c₂, hparams, h⟩ := bind_eq_ok.1 h
  obtain ⟨_, c₃, hclose, h⟩ := expect_bind_ok rfl h
  obtain ⟨_, c₄, hbrace, h⟩ := expect_bind_ok rfl h
  obtain ⟨body, _, hbody, h⟩ := bind_eq_ok.1 h
  obtain ⟨⟨⟩, rfl⟩ := pure_eq_ok.1 h
  have hps : c₁.Reads (separated (params.map fun x => [.name x])) c₂ ∧
      params.length ≤ maxParameters := by
    split at hparams
    · obtain ⟨rfl, rfl⟩ := pure_eq_ok.1 hparams
      exact ⟨.of_rest_eq rfl, Nat.zero_le _⟩
    · have := commaList_ok (I := fun found => found.length ≤ maxParameters)
        (fun _ _ _ _ _ hx => parameter_ok hx) (Nat.zero_le _) hparams
      simpa using this
  obtain ⟨hbody, hgram⟩ := blockBody_ok hg hbody
  refine ⟨?_, hps.2, hgram⟩
  have := hopen.trans (hps.1.trans (hclose.trans (hbrace.trans hbody)))
  simpa [functionYield] using this

/-! ### Expressions -/

theorem literal?_eq_some {t : Token} {value : Literal} (h : literal? t = some value) :
    t.symbol = value.symbol ∧ t.kind ≠ .endOfInput := by
  unfold literal? at h
  unfold Token.symbol
  split at h
  · next hk => cases h; simp [hk, Literal.symbol]
  · next hk => cases h; simp [hk, Literal.symbol]
  · next hk => cases h; simp [hk, Literal.symbol]
  · next hk hp => cases h; simp [hk, hp, Literal.symbol]
  · next hk hp => cases h; simp [hk, hp, Literal.symbol]
  · next hk hp => cases h; simp [hk, hp, Literal.symbol]
  · cases h

theorem internText_ok {value : Literal} {u : Unit} (h : internText value c = .ok u d) :
    d.rest = c.rest ∧ d.last = c.last := by
  unfold internText at h
  split at h
  · cases h
    exact ⟨rfl, rfl⟩
  · obtain ⟨-, rfl⟩ := pure_eq_ok.1 h
    exact ⟨rfl, rfl⟩

theorem literal_ok {value : Literal} {e : Expr} (hv : literal? c.current = some value)
    (h : literal c.current value c = .ok e d) :
    (∃ m, e = .literal m value) ∧ c.Reads [value.symbol] d := by
  obtain ⟨hsymbol, hend⟩ := literal?_eq_some hv
  obtain ⟨_, c₁, htext, h⟩ := bind_eq_ok.1 h
  obtain ⟨t, c₂, hadv, h⟩ := bind_eq_ok.1 h
  obtain ⟨m, rfl, hrest⟩ := newExpr_ok h
  obtain ⟨hrest₁, hlast⟩ := internText_ok htext
  have hcur : c₁.current = c.current := by rw [Cursor.current, hrest₁, hlast, ← Cursor.current]
  obtain ⟨rfl, hread⟩ := advance_ok hadv (hcur ▸ hend)
  rw [hcur, hsymbol] at hread
  exact ⟨⟨m, rfl⟩, ((Cursor.Reads.of_rest_eq hrest₁).trans hread).congr_right hrest⟩

theorem primary_ok (hg : g.Sound) : SoundFrom primaryRank (primary g) := by
  intro c e d h
  rw [primary, peek_bind] at h
  generalize hk : c.current.kind = k at h
  split at h
  · obtain ⟨x, c₁, hx, h⟩ := bind_eq_ok.1 h
    obtain ⟨m, rfl, hrest⟩ := newExpr_ok h
    exact ⟨(identifier_ok hx).congr_right hrest, rfl, Nat.le_refl _⟩
  · obtain ⟨_, c₁, hopen, h⟩ := bind_eq_ok.1 h
    obtain ⟨inner, c₂, hinner, h⟩ := bind_eq_ok.1 h
    obtain ⟨_, c₃, hclose, h⟩ := expect_bind_ok rfl h
    obtain ⟨m, rfl, hrest⟩ := newExprFrom_ok h
    obtain ⟨hread, hgram, -⟩ := hg.expression _ _ _ hinner
    have hopen := advance_ok_mark hopen hk rfl
    exact ⟨(hopen.trans (hread.trans hclose)).congr_right hrest, hgram, Nat.le_refl _⟩
  · obtain ⟨_, c₁, hfun, h⟩ := bind_eq_ok.1 h
    obtain ⟨⟨params, body⟩, c₂, hfunction, h⟩ := bind_eq_ok.1 h
    obtain ⟨m, rfl, hrest⟩ := newExprFrom_ok h
    obtain ⟨hread, hparams, hbody⟩ := functionRest_ok hg hfunction
    have hfun := advance_ok_mark hfun hk rfl
    refine ⟨(hfun.trans hread).congr_right hrest, ?_, Nat.le_refl _⟩
    simp [Expr.grammatical, hparams, hbody]
  · cases hv : literal? c.current with
    | some value =>
      rw [hv] at h
      obtain ⟨⟨m, rfl⟩, hread⟩ := literal_ok hv h
      exact ⟨hread, rfl, Nat.le_refl _⟩
    | none =>
      rw [hv] at h
      exact absurd h failAt_ne_ok

theorem arguments_ok (hg : g.Sound) {args : List Expr} (h : arguments g c = .ok args d) :
    c.Reads (separated (yieldEach args) ++ [.fixed .rightParen]) d ∧ grammaticalEach args := by
  rw [arguments, peekKind_bind, ite_bind] at h
  obtain ⟨args, c₁, hargs, h⟩ := bind_eq_ok.1 h
  obtain ⟨_, c₂, hclose, h⟩ := expect_bind_ok rfl h
  obtain ⟨rfl, rfl⟩ := pure_eq_ok.1 h
  have hread : c.Reads (separated (yieldEach args)) c₁ ∧ grammaticalEach args := by
    rw [grammaticalEach_iff, yieldEach_eq_map]
    split at hargs
    · obtain ⟨rfl, rfl⟩ := pure_eq_ok.1 hargs
      exact ⟨.of_rest_eq rfl, by simp⟩
    · have := commaList_ok (Y := Expr.yield) (I := fun found => ∀ e ∈ found, e.grammatical)
        (fun found _ e _ hfound he => ?_) (by simp) hargs
      · simpa using this
      · obtain ⟨hread, hgram, -⟩ := hg.expression _ _ _ he
        exact ⟨hread, by simpa using ⟨hgram, hfound⟩⟩
  exact ⟨hread.1.trans hclose, hread.2⟩

/-- One turn of a chain of calls and properties. -/
theorem suffix_ok (hg : g.Sound) {e f : Expr} (h : suffix g e c = .ok (some f) d)
    (he : e.grammatical) (hr : callRank ≤ e.rank) :
    ∃ ss, f.yield = e.yield ++ ss ∧ c.Reads ss d ∧ f.grammatical ∧ callRank ≤ f.rank := by
  rcases accept_bind_ok rfl h with ⟨c₁, hopen, h⟩ | ⟨-, h⟩
  · obtain ⟨args, c₂, hargs, h⟩ := bind_eq_ok.1 h
    obtain ⟨m, ⟨⟩, hrest⟩ := newExprFrom_ok h
    obtain ⟨hread, hgram⟩ := arguments_ok hg hargs
    refine ⟨_, by simp [Expr.yield], (hopen.trans hread).congr_right hrest, ?_, Nat.le_refl _⟩
    simp [Expr.grammatical, he, hr, hgram]
  · rcases accept_bind_ok rfl h with ⟨c₁, hdot, h⟩ | ⟨-, h⟩
    · obtain ⟨x, c₂, hx, h⟩ := bind_eq_ok.1 h
      obtain ⟨m, ⟨⟩, hrest⟩ := newExprFrom_ok h
      refine ⟨_, by simp [Expr.yield], (hdot.trans (identifier_ok hx)).congr_right hrest, ?_,
        Nat.le_refl _⟩
      simp [Expr.grammatical, he, hr]
    · cases (pure_eq_ok.1 h).1

theorem suffix_ok_none {e : Expr} (h : suffix g e c = .ok none d) : d = c := by
  rcases accept_bind_ok rfl h with ⟨c₁, -, h⟩ | ⟨-, h⟩
  · obtain ⟨args, c₂, -, h⟩ := bind_eq_ok.1 h
    obtain ⟨m, ⟨⟩, -⟩ := newExprFrom_ok h
  · rcases accept_bind_ok rfl h with ⟨c₁, -, h⟩ | ⟨-, h⟩
    · obtain ⟨x, c₂, -, h⟩ := bind_eq_ok.1 h
      obtain ⟨m, ⟨⟩, -⟩ := newExprFrom_ok h
    · exact (pure_eq_ok.1 h).2.symm

theorem call_ok (hg : g.Sound) : SoundFrom callRank (call g) := by
  intro c e d h
  obtain ⟨e₀, c₁, hprimary, h⟩ := bind_eq_ok.1 h
  obtain ⟨hread, hgram, hrank⟩ := primary_ok hg _ _ _ hprimary
  refine iterate_ok (P := fun e d => c.Reads e.yield d ∧ e.grammatical ∧ callRank ≤ e.rank)
    (fun e f c' d' he hstep => ?_) (fun e c' d' he hstep => ?_)
    ⟨hread, hgram, Nat.le_trans (by decide) hrank⟩ h
  · obtain ⟨ss, hf, hread, hgram⟩ := suffix_ok hg hstep he.2.1 he.2.2
    exact ⟨hf ▸ he.1.trans hread, hgram⟩
  · exact suffix_ok_none hstep ▸ he

theorem unary_ok (hg : g.Sound) : SoundFrom unaryRank (unary g) := by
  intro c e d h
  rw [unary, peekKind_bind] at h
  cases hop : UnaryOp.ofKind? c.current.kind with
  | some op =>
    rw [hop] at h
    obtain ⟨t, c₁, hadv, h⟩ := bind_eq_ok.1 h
    obtain ⟨operand, c₂, hoperand, h⟩ := bind_eq_ok.1 h
    obtain ⟨m, rfl, hrest⟩ := newExpr_ok h
    obtain ⟨hread, hgram, hrank⟩ := hg.unary _ _ _ hoperand
    have hop := advance_ok_mark hadv (UnaryOp.ofKind?_eq_some hop).symm (by cases op <;> rfl)
    refine ⟨(hop.trans hread).congr_right hrest, ?_, Nat.le_refl _⟩
    simp [Expr.grammatical, hgram, hrank]
  | none =>
    rw [hop] at h
    obtain ⟨hread, hgram, hrank⟩ := call_ok hg _ _ _ h
    exact ⟨hread, hgram, Nat.le_trans (by decide) hrank⟩

/-- One turn of a chain: an operator of the level and a further operand, or nothing. -/
theorem chainStep_ok {level : Level} {operand : Parser Expr}
    (ho : SoundFrom (level.rank + 1) operand) {left : Expr} {r : Option Expr}
    (h : chainStep level operand left c = .ok r d) (hl : left.grammatical)
    (hr : level.rank ≤ left.rank) :
    (r = none ∧ d = c) ∨ ∃ e ss, r = some e ∧ e.yield = left.yield ++ ss ∧ c.Reads ss d ∧
      e.grammatical ∧ level.rank ≤ e.rank := by
  rw [chainStep, peekKind_bind] at h
  cases hop : level.operator? c.current.kind with
  | none =>
    rw [hop] at h
    obtain ⟨rfl, rfl⟩ := pure_eq_ok.1 h
    exact .inl ⟨rfl, rfl⟩
  | some op =>
    rw [hop] at h
    obtain ⟨t, c₁, hadv, h⟩ := bind_eq_ok.1 h
    obtain ⟨right, c₂, hright, h⟩ := bind_eq_ok.1 h
    obtain ⟨m, rfl, hrest⟩ := newExpr_ok h
    obtain ⟨hkind, rfl⟩ := Level.operator?_eq_some hop
    obtain ⟨hread, hgram, hrank⟩ := ho _ _ _ hright
    have hop := advance_ok_mark hadv hkind.symm op.isMark_kind
    refine .inr ⟨_, _, rfl, op.yield_node m left right, (hop.trans hread).congr_right hrest, ?_,
      by simp⟩
    simpa [hl, hr, hgram] using Nat.lt_of_succ_le hrank

theorem chain_ok (hg : g.Sound) {levels : List Level} (hl : levels <:+ Level.all) :
    SoundFrom (chainRank levels) (chain g levels) := by
  induction levels with
  | nil => exact unary_ok hg
  | cons level levels ih =>
    intro c e d h
    obtain ⟨hlevel, hrank⟩ := chainRank_of_suffix hl
    have ih := ih ((List.suffix_cons _ _).trans hl)
    rw [hrank] at ih
    rw [hlevel]
    obtain ⟨e₀, c₁, hfirst, h⟩ := bind_eq_ok.1 h
    obtain ⟨hread, hgram, hr⟩ := ih _ _ _ hfirst
    refine iterate_ok (P := fun e d => c.Reads e.yield d ∧ e.grammatical ∧ level.rank ≤ e.rank)
      (fun left e c' d' hleft hstep => ?_) (fun left c' d' hleft hstep => ?_)
      ⟨hread, hgram, Nat.le_of_succ_le hr⟩ h
    · rcases chainStep_ok ih hstep hleft.2.1 hleft.2.2 with ⟨⟨⟩, -⟩ | ⟨_, ss, ⟨⟩, he, hss, hgram⟩
      exact ⟨he ▸ hleft.1.trans hss, hgram⟩
    · rcases chainStep_ok ih hstep hleft.2.1 hleft.2.2 with ⟨-, rfl⟩ | ⟨_, ss, ⟨⟩, -⟩
      exact hleft

theorem assign_ok {equals : Token} {target value e : Expr}
    (h : assign equals target value c = .ok e d) (ht : target.grammatical)
    (hv : value.grammatical) :
    e.yield = target.yield ++ .fixed .equal :: value.yield ∧ d.rest = c.rest ∧ e.grammatical := by
  unfold assign at h
  split at h
  · obtain ⟨_, _, ⟨⟩, h⟩ := bind_eq_ok.1 h
    obtain ⟨m, rfl, hrest⟩ := newExpr_ok h
    exact ⟨rfl, hrest, hv⟩
  · obtain ⟨_, _, ⟨⟩, h⟩ := bind_eq_ok.1 h
    obtain ⟨m, rfl, hrest⟩ := newExpr_ok h
    simp only [Expr.grammatical] at ht
    exact ⟨by simp [Expr.yield], hrest, by simp [Expr.grammatical, ht, hv]⟩
  · exact absurd h failAt_ne_ok

theorem assignment_ok (hg : g.Sound) : SoundFrom 0 (assignment g) := by
  intro c e d h
  obtain ⟨left, c₁, hleft, h⟩ := bind_eq_ok.1 h
  obtain ⟨hread, hgram, -⟩ := chain_ok hg (List.suffix_refl _) _ _ _ hleft
  rw [peekKind_bind] at h
  split at h
  · next hequal =>
    obtain ⟨t, c₂, hadv, h⟩ := bind_eq_ok.1 h
    obtain ⟨value, c₃, hvalue, h⟩ := bind_eq_ok.1 h
    obtain ⟨hreadv, hgramv, -⟩ := hg.expression _ _ _ hvalue
    have hread := hread.trans ((advance_ok_mark hadv (by simpa using hequal) rfl).trans hreadv)
    obtain ⟨hyield, hrest, hgram⟩ := assign_ok h hgram hgramv
    exact ⟨hyield ▸ hread.congr_right hrest, hgram, Nat.zero_le _⟩
  · obtain ⟨rfl, rfl⟩ := pure_eq_ok.1 h
    exact ⟨hread, hgram, Nat.zero_le _⟩

/-! ### Statements -/

section Statements

variable {start : Span}

theorem varDecl_ok (hg : g.Sound) : SoundAfter [.fixed .varWord] (varDecl g start) := by
  intro c s d h
  obtain ⟨x, c₁, hx, h⟩ := bind_eq_ok.1 h
  have hx := identifier_ok hx
  rcases accept_bind_ok rfl h with ⟨c₂, hequal, h⟩ | ⟨-, h⟩
  · obtain ⟨value, c₃, hvalue, h⟩ := bind_eq_ok.1 h
    obtain ⟨e, he, rfl⟩ := map_eq_ok.1 hvalue
    obtain ⟨_, c₄, hend, h⟩ := expect_bind_ok rfl h
    obtain ⟨m, rfl, hrest⟩ := newStmt_ok h
    obtain ⟨hread, hgram, -⟩ := hg.expression _ _ _ he
    have hread := hx.trans (hequal.trans (hread.trans hend))
    exact ⟨⟨_, rfl, hread.congr_right hrest⟩, hgram, nofun⟩
  · obtain ⟨value, c₃, hvalue, h⟩ := bind_eq_ok.1 h
    obtain ⟨rfl, rfl⟩ := pure_eq_ok.1 hvalue
    obtain ⟨_, c₄, hend, h⟩ := expect_bind_ok rfl h
    obtain ⟨m, rfl, hrest⟩ := newStmt_ok h
    exact ⟨⟨_, rfl, (hx.trans hend).congr_right hrest⟩, rfl, nofun⟩

theorem funDecl_ok (hg : g.Sound) : SoundAfter [.fixed .funWord] (funDecl g start) := by
  intro c s d h
  obtain ⟨x, c₁, hx, h⟩ := bind_eq_ok.1 h
  obtain ⟨⟨params, body⟩, c₂, hfunction, h⟩ := bind_eq_ok.1 h
  obtain ⟨m, rfl, hrest⟩ := newStmt_ok h
  obtain ⟨hread, hparams, hbody⟩ := functionRest_ok hg hfunction
  refine ⟨⟨_, rfl, ((identifier_ok hx).trans hread).congr_right hrest⟩, ?_, nofun⟩
  simp [Stmt.grammatical, hparams, hbody]

theorem classDecl_ok : SoundAfter [.fixed .classWord] (classDecl start) := by
  intro c s d h
  obtain ⟨x, c₁, hx, h⟩ := bind_eq_ok.1 h
  obtain ⟨_, c₂, hopen, h⟩ := expect_bind_ok rfl h
  obtain ⟨_, c₃, hclose, h⟩ := expect_bind_ok rfl h
  obtain ⟨m, rfl, hrest⟩ := newStmt_ok h
  have hread := (identifier_ok hx).trans (hopen.trans hclose)
  exact ⟨⟨_, rfl, hread.congr_right hrest⟩, rfl, nofun⟩

theorem print_ok (hg : g.Sound) : SoundAfter [.fixed .printWord] (print g start) := by
  intro c s d h
  obtain ⟨e, c₁, he, h⟩ := bind_eq_ok.1 h
  obtain ⟨_, c₂, hend, h⟩ := expect_bind_ok rfl h
  obtain ⟨m, rfl, hrest⟩ := newStmt_ok h
  obtain ⟨hread, hgram, -⟩ := hg.expression _ _ _ he
  exact ⟨⟨_, rfl, (hread.trans hend).congr_right hrest⟩, hgram, nofun⟩

theorem block_ok (hg : g.Sound) : SoundAfter [.fixed .leftBrace] (block g start) := by
  intro c s d h
  obtain ⟨body, c₁, hbody, h⟩ := bind_eq_ok.1 h
  obtain ⟨m, rfl, hrest⟩ := newStmt_ok h
  obtain ⟨hread, hgram⟩ := blockBody_ok hg hbody
  exact ⟨⟨_, rfl, hread.congr_right hrest⟩, hgram, nofun⟩

/-- The branch of an `if` without `else` is read as far as possible, so that no `else` is
ahead. -/
theorem ifElse_ok (hg : g.Sound) : SoundAfter [.fixed .ifWord] (ifElse g start) := by
  intro c s d h
  obtain ⟨_, c₁, hopen, h⟩ := expect_bind_ok rfl h
  obtain ⟨e, c₂, he, h⟩ := bind_eq_ok.1 h
  obtain ⟨_, c₃, hclose, h⟩ := expect_bind_ok rfl h
  obtain ⟨t, c₄, ht, h⟩ := bind_eq_ok.1 h
  obtain ⟨hreade, hgrame, -⟩ := hg.expression _ _ _ he
  obtain ⟨⟨ss, hss, hreadt⟩, hgramt, hopent⟩ := hg.declaration _ _ _ ht
  rw [List.nil_append] at hss
  have hread := hopen.trans (hreade.trans (hclose.trans hreadt))
  rcases accept_bind_ok rfl h with ⟨c₅, helse, h⟩ | ⟨hnot, h⟩
  · obtain ⟨branch, c₆, hbranch, h⟩ := bind_eq_ok.1 h
    obtain ⟨b, hb, rfl⟩ := map_eq_ok.1 hbranch
    obtain ⟨m, rfl, hrest⟩ := newStmt_ok h
    obtain ⟨⟨ss', hss', hreadb⟩, hgramb, hopenb⟩ := hg.declaration _ _ _ hb
    rw [List.nil_append] at hss'
    -- an `else` was ahead of the branch, so that nothing in it is open
    have hclosed : t.endsOpen = false := by
      cases hends : t.endsOpen with
      | false => rfl
      | true => exact absurd helse.kind_current (hopent hends)
    refine ⟨⟨_, rfl, ?_⟩, ?_, fun hends => ?_⟩
    · have := (hread.trans (helse.trans hreadb)).congr_right hrest
      simpa [yieldElse, hss, hss'] using this
    · simp [Stmt.grammatical, grammaticalElse, hgrame, hgramt, hgramb, hclosed]
    · rw [Cursor.kind_current_congr hrest]
      exact hopenb hends
  · obtain ⟨branch, c₆, hbranch, h⟩ := bind_eq_ok.1 h
    obtain ⟨rfl, rfl⟩ := pure_eq_ok.1 hbranch
    obtain ⟨m, rfl, hrest⟩ := newStmt_ok h
    refine ⟨⟨_, rfl, ?_⟩, ?_, fun _ => ?_⟩
    · simpa [yieldElse, hss] using hread.congr_right hrest
    · simp [Stmt.grammatical, grammaticalElse, hgrame, hgramt]
    · rw [Cursor.kind_current_congr hrest]
      exact hnot

theorem whileDo_ok (hg : g.Sound) : SoundAfter [.fixed .whileWord] (whileDo g start) := by
  intro c s d h
  obtain ⟨_, c₁, hopen, h⟩ := expect_bind_ok rfl h
  obtain ⟨e, c₂, he, h⟩ := bind_eq_ok.1 h
  obtain ⟨_, c₃, hclose, h⟩ := expect_bind_ok rfl h
  obtain ⟨b, c₄, hb, h⟩ := bind_eq_ok.1 h
  obtain ⟨m, rfl, hrest⟩ := newStmt_ok h
  obtain ⟨hreade, hgrame, -⟩ := hg.expression _ _ _ he
  obtain ⟨⟨ss, hss, hreadb⟩, hgramb, hopenb⟩ := hg.declaration _ _ _ hb
  rw [List.nil_append] at hss
  refine ⟨⟨_, rfl, ?_⟩, by simp [Stmt.grammatical, hgrame, hgramb], fun hends => ?_⟩
  · have := (hopen.trans (hreade.trans (hclose.trans hreadb))).congr_right hrest
    simpa [hss] using this
  · rw [Cursor.kind_current_congr hrest]
    exact hopenb hends

theorem operand?_ok (hg : g.Sound) {value : Option Expr} (h : operand? g c = .ok value d) :
    c.Reads (yieldOption value) d ∧ grammaticalOption value := by
  rw [operand?, peekKind_bind] at h
  split at h
  · obtain ⟨rfl, rfl⟩ := pure_eq_ok.1 h
    exact ⟨.of_rest_eq rfl, rfl⟩
  · obtain ⟨e, he, rfl⟩ := map_eq_ok.1 h
    obtain ⟨hread, hgram, -⟩ := hg.expression _ _ _ he
    exact ⟨hread, hgram⟩

theorem returns_ok (hg : g.Sound) : SoundAfter [.fixed .returnWord] (returns g start) := by
  intro c s d h
  obtain ⟨value, c₁, hvalue, h⟩ := bind_eq_ok.1 h
  obtain ⟨_, c₂, hend, h⟩ := expect_bind_ok rfl h
  obtain ⟨m, rfl, hrest⟩ := newStmt_ok h
  obtain ⟨hread, hgram⟩ := operand?_ok hg hvalue
  exact ⟨⟨_, rfl, (hread.trans hend).congr_right hrest⟩, hgram, nofun⟩

theorem breaks_ok (hg : g.Sound) : SoundAfter [.fixed .breakWord] (breaks g start) := by
  intro c s d h
  obtain ⟨value, c₁, hvalue, h⟩ := bind_eq_ok.1 h
  obtain ⟨_, c₂, hend, h⟩ := expect_bind_ok rfl h
  obtain ⟨m, rfl, hrest⟩ := newStmt_ok h
  obtain ⟨hread, hgram⟩ := operand?_ok hg hvalue
  exact ⟨⟨_, rfl, (hread.trans hend).congr_right hrest⟩, hgram, nofun⟩

theorem expression_ok (hg : g.Sound) : SoundAfter [] (Parser.expression g start) := by
  intro c s d h
  obtain ⟨e, c₁, he, h⟩ := bind_eq_ok.1 h
  obtain ⟨_, c₂, hend, h⟩ := expect_bind_ok rfl h
  obtain ⟨m, rfl, hrest⟩ := newStmt_ok h
  obtain ⟨hread, hgram, -⟩ := assignment_ok hg _ _ _ he
  exact ⟨⟨_, rfl, (hread.trans hend).congr_right hrest⟩, hgram, nofun⟩

/-- The reader that a first word selects is one for what follows that word. -/
theorem afterWord?_ok (hg : g.Sound) {kind next : Kind} {p : Span → Parser Stmt}
    (h : afterWord? g kind next = some p) :
    kind.isMark ∧ SoundAfter [.fixed kind] (p start) := by
  unfold afterWord? at h
  split at h
  · cases h; exact ⟨rfl, varDecl_ok hg⟩
  · cases h; exact ⟨rfl, classDecl_ok⟩
  · split at h
    · cases h; exact ⟨rfl, funDecl_ok hg⟩
    · cases h
  · cases h; exact ⟨rfl, print_ok hg⟩
  · cases h; exact ⟨rfl, block_ok hg⟩
  · cases h; exact ⟨rfl, ifElse_ok hg⟩
  · cases h; exact ⟨rfl, whileDo_ok hg⟩
  · cases h; exact ⟨rfl, returns_ok hg⟩
  · cases h; exact ⟨rfl, breaks_ok hg⟩
  · cases h

theorem declaration_ok (hg : g.Sound) : SoundAfter [] (declaration g) := by
  intro c s d h
  rw [declaration, peek_bind, peekNextKind_bind] at h
  cases hword : afterWord? g c.current.kind c.nextKind with
  | some p =>
    rw [hword] at h
    obtain ⟨t, c₁, hadv, h⟩ := bind_eq_ok.1 h
    obtain ⟨hmark, hp⟩ := afterWord?_ok hg hword
    obtain ⟨⟨ss, hss, hread⟩, hgram, hopen⟩ := hp _ _ _ h
    exact ⟨⟨_, rfl, hss ▸ (advance_ok_mark hadv rfl hmark).trans hread⟩, hgram, hopen⟩
  | none =>
    rw [hword] at h
    exact expression_ok hg _ _ _ h

end Statements

/-! ### Programs -/

theorem entry_sound (n : Nat) : (entry n).Sound := by
  induction n with
  | zero =>
    exact ⟨fun _ _ _ h => absurd h failAt_ne_ok, fun _ _ _ h => absurd h failAt_ne_ok,
      fun _ _ _ h => absurd h failAt_ne_ok⟩
  | succ n ih => exact ⟨assignment_ok ih, unary_ok ih, declaration_ok ih⟩

/-- A program is read to the end marker: as many turns of its loop as there are tokens would have
consumed them all. -/
theorem program_ok {ss : List Stmt} (h : program c = .ok ss d) :
    c.Reads (yieldAll ss) d ∧ grammaticalAll ss ∧ d.current.kind = .endOfInput := by
  obtain ⟨found, c₁, hloop, h⟩ := bind_eq_ok.1 h
  obtain ⟨rfl, rfl⟩ := pure_eq_ok.1 h
  obtain ⟨hread, hgram, hends⟩ := statements_ok (fun kind => kind == .endOfInput)
    (n := c.rest.length) (declaration_ok (entry_sound _)) hloop
  refine ⟨hread, hgram, ?_⟩
  rcases hends with hkind | hlen
  · simpa using hkind
  · have hnil : c₁.rest = [] := List.eq_nil_of_length_eq_zero (by omega)
    simp [Cursor.current, hnil, Token.endOfInput]

/-- A program of tokens before an end marker is written with all these tokens. -/
theorem program_sound {names : NameTable} {ts : List Token} {eof : Token} {ss : List Stmt}
    (hts : ∀ t ∈ ts, t.isEnd = false) (heof : eof.isEnd)
    (h : program (.ofTokens names (ts ++ [eof])) = .ok ss d) :
    ts.map Token.symbol = yieldAll ss ∧ grammaticalAll ss := by
  obtain ⟨⟨used, hrest, hyield, hused⟩, hgram, hkind⟩ := program_ok h
  rw [← hyield]
  refine ⟨congrArg _ ?_, hgram⟩
  have hrest : ts ++ [eof] = used ++ d.rest := hrest
  rcases List.append_eq_append_iff.1 hrest with ⟨more, rfl, hone⟩ | ⟨more, rfl, htail⟩
  · cases more with
    | nil => rw [List.append_nil]
    | cons t more =>
      obtain ⟨rfl, -⟩ : eof = t ∧ more ++ d.rest = [] := by simpa using hone
      have := hused eof (by simp)
      simp [heof] at this
  · cases more with
    | nil => rw [List.append_nil]
    | cons t more =>
      have ht := hts t (by simp)
      simp [Cursor.current, htail] at hkind
      simp [Token.isEnd, hkind] at ht

end Parser

/-! ### The theorem -/

/-- **No token is lost, added or moved.** When the tokens before an end marker are parsed, the trees
are written with exactly these tokens, parentheses standing where the trees have groups, and the
trees obey the levels of the grammar. -/
theorem parse_sound {names names' : NameTable} {ts : List Token} {eof : Token} {program : Program}
    (hts : ∀ t ∈ ts, t.isEnd = false) (heof : eof.isEnd)
    (h : parse names (ts ++ [eof]) = (.ok program, names')) :
    yieldAll program.statements = ts.map Token.symbol ∧ grammaticalAll program.statements := by
  rw [parse] at h
  split at h
  · next ss d hss =>
    obtain ⟨hyield, hgram⟩ := Parser.program_sound hts heof hss
    cases h
    exact ⟨hyield.symm, hgram⟩
  · cases h

/-- An `else` after two open `if`s, the inner one in a loop, and a chain of calls and products that
is assigned to. -/
def nestedTokens : List Token :=
  let token (kind : Kind) (lexeme : String) : Token := ⟨kind, lexeme, none, 1, .point 0⟩
  [token .ifWord "if", token .leftParen "(", token .trueWord "true", token .rightParen ")",
    token .whileWord "while", token .leftParen "(", token .identifier "a", token .rightParen ")",
    token .ifWord "if", token .leftParen "(", token .minus "-", token .identifier "b",
    token .star "*", token .nilWord "nil", token .rightParen ")",
    token .identifier "f", token .leftParen "(", token .rightParen ")", token .dot ".",
    token .identifier "x", token .equal "=",
    ⟨.integer, "1", some (.int 1), 1, .point 0⟩, token .semicolon ";",
    token .elseWord "else", token .printWord "print", token .identifier "c", token .semicolon ";"]

theorem parse_sound_nestedTokens : ∃ program names',
    parse .fresh (nestedTokens ++ [.endOfInput 1 0]) = (.ok program, names') ∧
      yieldAll program.statements = nestedTokens.map Token.symbol ∧
      grammaticalAll program.statements := by
  have hok : (parse .fresh (nestedTokens ++ [.endOfInput 1 0])).1.isOk := by decide +kernel
  rcases h : parse .fresh (nestedTokens ++ [.endOfInput 1 0]) with ⟨e | program, names'⟩
  · rw [h] at hok
    cases hok
  · exact ⟨program, names', h, parse_sound (by decide) rfl h⟩

end Lox
