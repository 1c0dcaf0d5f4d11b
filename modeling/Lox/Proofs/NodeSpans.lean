import Lox.Proofs.NodeNumbers
import Lox.Proofs.Numbering
import Lox.Proofs.ParserSoundness
import Lox.Proofs.Parts

/-!
# The spans of nodes

A reader gives a node the span of the tokens that it consumed for the node, whether it merges the
spans of two nodes, or that of the first token and that of the token consumed last, or takes that of
the only token.

* `Cursor.Consumes`: from one place to another tokens are consumed that certain parts match, and
  nodes are made for these parts and for targets of assignments;
* `Cursor.Passes`, `Cursor.Spans`: this for some tokens, and for tokens of a certain span;
* `Entry.Exact`: readers that are entered again consume what their trees match;
* one lemma for each reader;
* `parse_matches`: the program of a token list, and its targets.
-/

namespace Lox

/-! ### What is consumed -/

/-- An expression of the grammar that matches some of several tokens. -/
def Expr.MatchesIn (ts : List Token) (e : Expr) : Prop :=
  e.grammatical ∧ ∃ used, used <:+: ts ∧ (Node.expr e).Exact used

/-- From `c` to `d` the tokens `ts` are consumed, and the parts `ps` match them. The nodes made for
them are those in the parts, and the targets that were kept. -/
structure Cursor.Consumes (c : Cursor) (ps : List Part) (ts : List Token) (d : Cursor) : Prop where
  rest : c.rest = ts ++ d.rest
  last : d.last = (ts.getLast?.map Token.span).getD c.last
  matched : Matches ps ts
  made : ∃ new, d.targets = new ++ c.targets ∧ (∀ e ∈ new, e.MatchesIn ts) ∧
    ∀ q ∈ NodeId.between c.counts d.counts, ∃ n ∈ nodesOf ps ++ new.map Node.expr, n.id = q

/-- From `c` to `d` tokens are consumed that the parts `ps` match. -/
def Cursor.Passes (c : Cursor) (ps : List Part) (d : Cursor) : Prop :=
  ∃ ts, c.Consumes ps ts d

/-- From `c` to `d` tokens are consumed that the parts `ps` match, and `s` is their span. -/
def Cursor.Spans (c : Cursor) (ps : List Part) (s : Span) (d : Cursor) : Prop :=
  ∃ ts, c.Consumes ps ts d ∧ Spanned ts s

theorem Expr.MatchesIn.mono {ts us : List Token} {e : Expr} (h : e.MatchesIn ts)
    (hts : ts <:+: us) : e.MatchesIn us := by
  obtain ⟨hgram, used, hused, hexact⟩ := h
  exact ⟨hgram, used, hused.trans hts, hexact⟩

theorem NodeId.mem_between_trans {b c d : Counts} {q : NodeId} (h : q ∈ between b d) :
    q ∈ between b c ∨ q ∈ between c d := by
  cases q with
  | expr i =>
    simp only [expr_mem_between] at h ⊢
    omega
  | stmt i =>
    simp only [stmt_mem_between] at h ⊢
    omega

theorem NodeId.not_mem_between_self {c : Counts} {q : NodeId} : q ∉ between c c := by
  simp [between]

namespace Cursor.Consumes

variable {c d e : Cursor} {ps qs : List Part} {ts us : List Token}

theorem refl (c : Cursor) : c.Consumes [] [] c :=
  ⟨rfl, rfl, .nil, [], rfl, List.forall_mem_nil _,
    fun _ hq => absurd hq NodeId.not_mem_between_self⟩

theorem trans (h : c.Consumes ps ts d) (h' : d.Consumes qs us e) :
    c.Consumes (ps ++ qs) (ts ++ us) e := by
  refine ⟨by rw [h.rest, h'.rest, List.append_assoc], ?_, h.matched.append h'.matched, ?_⟩
  · rw [h'.last, h.last, List.getLast?_append]
    cases us.getLast? <;> rfl
  · obtain ⟨new, htargets, hnew, hmade⟩ := h.made
    obtain ⟨new', htargets', hnew', hmade'⟩ := h'.made
    refine ⟨new' ++ new, by rw [htargets', htargets, List.append_assoc], ?_, fun q hq => ?_⟩
    · intro x hx
      rcases List.mem_append.1 hx with hx | hx
      · exact (hnew' x hx).mono (List.suffix_append ts us).isInfix
      · exact (hnew x hx).mono (List.prefix_append ts us).isInfix
    · rw [nodesOf_append, List.map_append]
      rcases NodeId.mem_between_trans hq with hq | hq
      · obtain ⟨n, hn, rfl⟩ := hmade q hq
        exact ⟨n, by simp only [List.mem_append] at hn ⊢; tauto, rfl⟩
      · obtain ⟨n, hn, rfl⟩ := hmade' q hq
        exact ⟨n, by simp only [List.mem_append] at hn ⊢; tauto, rfl⟩

/-- The first token was ahead. -/
theorem current_eq (h : c.Consumes ps ts d) {t : Token} (ht : ts.head? = some t) :
    c.current = t := by
  obtain ⟨ts, rfl⟩ := List.head?_eq_some_iff.1 ht
  simp [current, h.rest]

/-- The last token is the one consumed last. -/
theorem last_eq (h : c.Consumes ps ts d) {t : Token} (ht : ts.getLast? = some t) :
    d.last = t.span := by
  rw [h.last, ht]
  rfl

/-- Parts that are of one node match the same tokens as this node, if a number is left for it. -/
theorem node {n : Node} (h : c.Consumes n.parts ts d) (hspan : Spanned ts n.span)
    (hrest : e.rest = d.rest) (hlast : e.last = d.last) (htargets : e.targets = d.targets)
    (hcounts : ∀ q ∈ NodeId.between d.counts e.counts, n.id = q) :
    c.Consumes [.node n] ts e := by
  refine ⟨hrest ▸ h.rest, hlast ▸ h.last, .of_exact ⟨hspan, h.matched⟩, ?_⟩
  obtain ⟨new, hnew, hmatches, hmade⟩ := h.made
  refine ⟨new, htargets ▸ hnew, hmatches, fun q hq => ?_⟩
  rw [nodesOf_node]
  rcases NodeId.mem_between_trans hq with hq | hq
  · obtain ⟨m, hm, rfl⟩ := hmade q hq
    exact ⟨m, by simp only [List.mem_append, List.mem_cons] at hm ⊢; tauto, rfl⟩
  · exact ⟨n, by simp, hcounts q hq⟩

/-- An assignment takes the place of its target, which is kept. -/
theorem keep {x : Expr} (h : c.Consumes (.expr x :: ps) ts d) (hx : x.grammatical) :
    c.Consumes ((Node.expr x).parts ++ ps) ts { d with targets := x :: d.targets } := by
  obtain ⟨new, hnew, hmatches, hmade⟩ := h.made
  have hrest := h.rest
  have hlast := h.last
  cases h.matched with
  | @node _ used us _ spanned inside tail =>
    have hx : x.MatchesIn (used ++ us) :=
      ⟨hx, used, (List.prefix_append used us).isInfix, spanned, inside⟩
    refine ⟨hrest, hlast, inside.append tail, x :: new, by rw [hnew, List.cons_append], ?_,
      fun q hq => ?_⟩
    · simpa using ⟨hx, hmatches⟩
    · -- the node of the target is in the parts no longer, but it is the first one kept
      obtain ⟨n, hn, rfl⟩ := hmade q hq
      refine ⟨n, ?_, rfl⟩
      rw [Part.expr, nodesOf_node] at hn
      rw [nodesOf_append, List.map_cons]
      simp only [List.mem_append, List.mem_cons] at hn ⊢
      tauto

end Cursor.Consumes

namespace Cursor

variable {c d e f : Cursor} {p : Part} {ps qs rs : List Part} {s s' : Span}

theorem Passes.refl (c : Cursor) : c.Passes [] c := ⟨[], .refl c⟩

theorem Passes.trans (h : c.Passes ps d) (h' : d.Passes qs e) : c.Passes (ps ++ qs) e := by
  obtain ⟨ts, hts⟩ := h
  obtain ⟨us, hus⟩ := h'
  exact ⟨ts ++ us, hts.trans hus⟩

theorem Spans.passes (h : c.Spans ps s d) : c.Passes ps d := by
  obtain ⟨ts, hts, -⟩ := h
  exact ⟨ts, hts⟩

/-- A node has the span of what it matches. -/
theorem Passes.spans {n : Node} (h : c.Passes [.node n] d) : c.Spans [.node n] n.span d := by
  obtain ⟨ts, hts⟩ := h
  refine ⟨ts, hts, ?_⟩
  cases hts.matched with
  | node spanned _ tail =>
    cases tail
    rwa [List.append_nil]

/-- The span from the token ahead to the token consumed last. -/
theorem Passes.spans_current (h : c.Passes (p :: ps) d) :
    c.Spans (p :: ps) (c.current.span.merge d.last) d := by
  obtain ⟨ts, hts⟩ := h
  have hne := hts.matched.ne_nil
  have hhead := List.head?_eq_some_head hne
  have hlast := List.getLast?_eq_some_getLast hne
  refine ⟨ts, hts, ?_⟩
  rw [hts.current_eq hhead, hts.last_eq hlast]
  obtain ⟨us, hus⟩ := List.head?_eq_some_iff.1 hhead
  exact (Spanned.singleton _).merge_last ⟨us, hus.symm⟩ hlast

/-- The span around two spans, and what is consumed between them. -/
theorem Spans.merge (h : c.Spans ps s d) (hmid : d.Passes qs e) (h' : e.Spans rs s' f) :
    c.Spans (ps ++ qs ++ rs) (s.merge s') f := by
  obtain ⟨ts, hts, hs⟩ := h
  obtain ⟨us, hus⟩ := hmid
  obtain ⟨vs, hvs, hs'⟩ := h'
  refine ⟨ts ++ us ++ vs, (hts.trans hus).trans hvs, hs.merge hs' ?_ (List.suffix_append _ _)⟩
  exact (List.prefix_append ts us).trans (List.prefix_append _ vs)

/-- The span from that of what comes first to the token consumed last. -/
theorem Spans.merge_last (h : c.Spans ps s d) (h' : d.Passes qs e) :
    c.Spans (ps ++ qs) (s.merge e.last) e := by
  obtain ⟨ts, hts, hs⟩ := h
  obtain ⟨us, hus⟩ := h'
  have hall := hts.trans hus
  have hne : ts ++ us ≠ [] := List.append_ne_nil_of_left_ne_nil hs.ne_nil us
  have hlast := List.getLast?_eq_some_getLast hne
  refine ⟨ts ++ us, hall, ?_⟩
  rw [hall.last_eq hlast]
  exact hs.merge_last (List.prefix_append ts us) hlast

/-- A kept target. -/
theorem Spans.keep {x : Expr} (h : c.Spans (.expr x :: ps) s d) (hx : x.grammatical) :
    c.Spans ((Node.expr x).parts ++ ps) s { d with targets := x :: d.targets } := by
  obtain ⟨ts, hts, hs⟩ := h
  exact ⟨ts, hts.keep hx, hs⟩

end Cursor

namespace Parser

variable {α β : Type} {c d e : Cursor} {p : Part} {ps : List Part} {start span : Span}

/-! ### Basic readers -/

theorem advance_consumes {t : Token} (h : advance c = .ok t d)
    (hne : c.current.kind ≠ .endOfInput) :
    t = c.current ∧ c.Consumes [.symbol t.symbol] [t] d := by
  obtain ⟨rest, hrest, hadv⟩ := advance_eq hne
  rw [hadv] at h
  cases h
  exact ⟨rfl, hrest, rfl, .of_symbol rfl, [], rfl, List.forall_mem_nil _,
    fun _ hq => absurd hq NodeId.not_mem_between_self⟩

/-- A symbol that its kind determines, with the span of the token ahead. -/
theorem advance_spans {kind : Kind} {t : Token} (h : advance c = .ok t d)
    (hc : c.current.kind = kind) (hk : kind.isMark) : c.Spans [.fixed kind] t.span d := by
  have hne : c.current.kind ≠ .endOfInput := hc ▸ Kind.ne_endOfInput_of_isMark hk
  obtain ⟨rfl, hconsumes⟩ := advance_consumes h hne
  rw [Token.symbol_of_isMark (hc ▸ hk), hc] at hconsumes
  exact ⟨_, hconsumes, .singleton _⟩

theorem accept_bind_passes {kind : Kind} {f : Bool → Parser β} {b : β} (hk : kind.isMark)
    (h : (accept kind >>= f) c = .ok b d) :
    (∃ e, c.Passes [.fixed kind] e ∧ f true e = .ok b d) ∨ f false c = .ok b d := by
  rcases accept_bind_advance h with ⟨hkind, t, e, hadv, h⟩ | ⟨-, h⟩
  · exact .inl ⟨e, (advance_spans hadv hkind hk).passes, h⟩
  · exact .inr h

theorem expect_bind_passes {kind : Kind} {what : Expected} {f : Token → Parser β} {b : β}
    (hk : kind.isMark) (h : (expect kind what >>= f) c = .ok b d) :
    ∃ t e, c.Passes [.fixed kind] e ∧ f t e = .ok b d := by
  obtain ⟨t, e, hexpect, h⟩ := bind_eq_ok.1 h
  obtain ⟨hkind, hadv⟩ := expect_advance hexpect
  exact ⟨t, e, (advance_spans hadv hkind hk).passes, h⟩

theorem identifier_spans {what : Expected} {x : String} (h : identifier what c = .ok x d) :
    c.Spans [.name x] c.current.span d := by
  obtain ⟨t, c₁, hexpect, h⟩ := bind_eq_ok.1 h
  obtain ⟨_, _, ⟨⟩, h⟩ := bind_eq_ok.1 h
  obtain ⟨rfl, rfl⟩ := pure_eq_ok.1 h
  obtain ⟨hkind, hadv⟩ := expect_advance hexpect
  obtain ⟨rfl, hconsumes⟩ := advance_consumes hadv (by simp [hkind])
  rw [Token.symbol, hkind] at hconsumes
  obtain ⟨hrest, hlast, hmatches, hmade⟩ := hconsumes
  exact ⟨[c.current], ⟨hrest, hlast, hmatches, hmade⟩, .singleton _⟩

/-- The node of an expression is made when its parts have been consumed. -/
theorem newExpr_passes {F : Mark → β} {b : β}
    (h : (newExpr span >>= fun m => pure (F m)) d = .ok b e) :
    ∃ m, b = F m ∧ ∀ {c : Cursor} (x : Expr), x.mark = m →
      c.Spans (Node.expr x).parts span d → c.Passes [.expr x] e := by
  cases h
  refine ⟨_, rfl, fun x hx ⟨ts, hts, hspan⟩ => ⟨ts, ?_⟩⟩
  refine hts.node (n := .expr x) ?_ rfl rfl rfl fun q hq => ?_
  · rwa [Node.span, Expr.span, hx]
  · -- the only number that is given is that of the node
    cases q with
    | expr i =>
      rw [Node.id, hx]
      simp only [NodeId.expr_mem_between, Cursor.counts] at hq
      exact congrArg NodeId.expr (by dsimp only; omega)
    | stmt i =>
      simp only [NodeId.stmt_mem_between, Cursor.counts] at hq
      omega

theorem newExprFrom_passes {F : Mark → β} {b : β}
    (h : (spanFrom start >>= fun span => newExpr span >>= fun m => pure (F m)) d = .ok b e) :
    ∃ m, b = F m ∧ ∀ {c : Cursor} (x : Expr), x.mark = m →
      c.Spans (Node.expr x).parts (start.merge d.last) d → c.Passes [.expr x] e :=
  newExpr_passes (F := F) h

/-- The node of a statement is made when its parts have been consumed. -/
theorem newStmt_passes {F : Mark → Stmt} {s : Stmt}
    (h : (newStmt start >>= fun m => pure (F m)) d = .ok s e) :
    ∃ m, s = F m ∧ ∀ {c : Cursor} (s : Stmt), s.mark = m →
      c.Spans (Node.stmt s).parts (start.merge d.last) d → c.Passes [.stmt s] e := by
  cases h
  refine ⟨_, rfl, fun s hs ⟨ts, hts, hspan⟩ => ⟨ts, ?_⟩⟩
  refine hts.node (n := .stmt s) ?_ rfl rfl rfl fun q hq => ?_
  · rwa [Node.span, Stmt.span, hs]
  · cases q with
    | expr i =>
      simp only [NodeId.expr_mem_between, Cursor.counts] at hq
      omega
    | stmt i =>
      rw [Node.id, hs]
      simp only [NodeId.stmt_mem_between, Cursor.counts] at hq
      exact congrArg NodeId.stmt (by dsimp only; omega)

/-! ### Lists -/

/-- What a reader of expressions consumes matches what it gives. -/
def ExactExpr (p : Parser Expr) : Prop := ∀ c e d, p c = .ok e d → c.Passes [.expr e] d

/-- What a reader of statements consumes matches what it gives. -/
def ExactStmt (p : Parser Stmt) : Prop := ∀ c s d, p c = .ok s d → c.Passes [.stmt s] d

/-- What the readers that are entered again consume matches what they give. -/
structure Entry.Exact (g : Entry) : Prop where
  expression : ExactExpr g.expression
  unary : ExactExpr g.unary
  declaration : ExactStmt g.declaration

variable {g : Entry}

theorem commaList_passes {P : α → Part} {item : List α → Parser α}
    (hitem : ∀ found c x d, item found c = .ok x d → c.Passes [P x] d) {xs : List α}
    (h : commaList g item c = .ok xs d) : c.Passes (Part.listed (xs.map P)) d := by
  obtain ⟨x, c₁, hx, h⟩ := bind_eq_ok.1 h
  obtain ⟨found, c₂, hloop, h⟩ := bind_eq_ok.1 h
  obtain ⟨rfl, rfl⟩ := pure_eq_ok.1 h
  let I (found : List α) (d : Cursor) : Prop :=
    found ≠ [] ∧ c.Passes (Part.listed (found.reverse.map P)) d
  have hI : I found c₂ := by
    refine iterate_ok (P := I) (fun found more c' d' hfound hstep => ?_)
      (fun found c' d' hfound hstep => ?_) ⟨List.cons_ne_nil x [], hitem [] c x c₁ hx⟩ hloop
    · obtain ⟨hne, hpasses⟩ := hfound
      rcases accept_bind_passes rfl hstep with ⟨e, hcomma, hstep⟩ | hstep
      · obtain ⟨y, _, hy, hstep⟩ := bind_eq_ok.1 hstep
        obtain ⟨⟨⟩, rfl⟩ := pure_eq_ok.1 hstep
        refine ⟨by simp, ?_⟩
        rw [List.reverse_cons, List.map_append, List.map_singleton,
          Part.listed_concat (by simpa using hne)]
        exact hpasses.trans (hcomma.trans (hitem found e y _ hy))
      · cases (pure_eq_ok.1 hstep).1
    · rcases accept_bind_ok rfl hstep with ⟨e, -, hstep⟩ | ⟨-, hstep⟩
      · obtain ⟨y, _, -, hstep⟩ := bind_eq_ok.1 hstep
        cases (pure_eq_ok.1 hstep).1
      · obtain ⟨-, rfl⟩ := pure_eq_ok.1 hstep
        exact hfound
  exact hI.2

theorem statements_passes (ends : Kind → Bool) {p : Parser Stmt} (hp : ExactStmt p) {n : Nat}
    {found : List Stmt} (h : iterate (fun found => do
        if ends (← peekKind) then return none else return some ((← p) :: found)) n [] c =
      .ok found d) : c.Passes (found.reverse.map Part.stmt) d := by
  refine iterate_ok (P := fun found d => c.Passes (found.reverse.map Part.stmt) d)
    (fun found more c' d' hfound hstep => ?_) (fun found c' d' hfound hstep => ?_) (.refl c) h
  · rw [peekKind_bind] at hstep
    split at hstep
    · cases (pure_eq_ok.1 hstep).1
    · obtain ⟨s, _, hs, hstep⟩ := bind_eq_ok.1 hstep
      obtain ⟨⟨⟩, rfl⟩ := pure_eq_ok.1 hstep
      rw [List.reverse_cons, List.map_append]
      exact hfound.trans (hp _ _ _ hs)
  · rw [peekKind_bind] at hstep
    split at hstep
    · obtain ⟨-, rfl⟩ := pure_eq_ok.1 hstep
      exact hfound
    · obtain ⟨s, _, -, hstep⟩ := bind_eq_ok.1 hstep
      cases (pure_eq_ok.1 hstep).1

theorem blockBody_passes (hg : g.Exact) {body : List Stmt} (h : blockBody g c = .ok body d) :
    c.Passes (body.map Part.stmt ++ [.fixed .rightBrace]) d := by
  obtain ⟨found, c₁, hloop, h⟩ := bind_eq_ok.1 h
  obtain ⟨_, c₂, hbrace, h⟩ := expect_bind_passes rfl h
  obtain ⟨rfl, rfl⟩ := pure_eq_ok.1 h
  exact (statements_passes (fun kind => kind == .rightBrace || kind == .endOfInput)
    hg.declaration hloop).trans hbrace

theorem parameter_passes {found : List String} {x : String} (h : parameter found c = .ok x d) :
    c.Passes [.name x] d := by
  rw [parameter] at h
  split at h
  · rw [peek_bind] at h
    exact absurd h failAt_ne_ok
  · exact (identifier_spans h).passes

theorem functionRest_passes (hg : g.Exact) {params : List String} {body : List Stmt}
    (h : functionRest g c = .ok (params, body) d) :
    c.Passes (Part.function params body) d := by
  obtain ⟨_, c₁, hopen, h⟩ := expect_bind_passes rfl h
  rw [peekKind_bind, ite_bind] at h
  obtain ⟨params, c₂, hparams, h⟩ := bind_eq_ok.1 h
  obtain ⟨_, c₃, hclose, h⟩ := expect_bind_passes rfl h
  obtain ⟨_, c₄, hbrace, h⟩ := expect_bind_passes rfl h
  obtain ⟨body, _, hbody, h⟩ := bind_eq_ok.1 h
  obtain ⟨⟨⟩, rfl⟩ := pure_eq_ok.1 h
  have hps : c₁.Passes (Part.listed (params.map Part.name)) c₂ := by
    split at hparams
    · obtain ⟨rfl, rfl⟩ := pure_eq_ok.1 hparams
      exact .refl c₁
    · exact commaList_passes (fun _ _ _ _ hx => parameter_passes hx) hparams
  have hbody := blockBody_passes hg hbody
  have := hopen.trans (hps.trans (hclose.trans (hbrace.trans hbody)))
  simpa [Part.function] using this

/-! ### Expressions -/

theorem internText_consumes {value : Literal} {u : Unit} (h : internText value c = .ok u d) :
    c.current = d.current ∧ c.Consumes [] [] d := by
  unfold internText at h
  split at h
  · cases h
    obtain ⟨hrest, hlast, hmatches, hmade⟩ := Cursor.Consumes.refl c
    exact ⟨rfl, hrest, hlast, hmatches, hmade⟩
  · obtain ⟨-, rfl⟩ := pure_eq_ok.1 h
    exact ⟨rfl, .refl c⟩

theorem literal_passes {value : Literal} {e : Expr} (hv : literal? c.current = some value)
    (h : literal c.current value c = .ok e d) : c.Passes [.expr e] d := by
  obtain ⟨hsymbol, hend⟩ := literal?_eq_some hv
  obtain ⟨_, c₁, htext, h⟩ := bind_eq_ok.1 h
  obtain ⟨t, c₂, hadv, h⟩ := bind_eq_ok.1 h
  obtain ⟨m, rfl, hnode⟩ := newExpr_passes h
  obtain ⟨hcurrent, htext⟩ := internText_consumes htext
  obtain ⟨rfl, hconsumes⟩ := advance_consumes hadv (hcurrent ▸ hend)
  rw [← hcurrent, hsymbol] at hconsumes
  exact hnode _ rfl ⟨_, htext.trans hconsumes, .singleton _⟩

theorem primary_passes (hg : g.Exact) : ExactExpr (primary g) := by
  intro c e d h
  rw [primary, peek_bind] at h
  generalize hk : c.current.kind = k at h
  split at h
  · obtain ⟨x, c₁, hx, h⟩ := bind_eq_ok.1 h
    obtain ⟨m, rfl, hnode⟩ := newExpr_passes h
    exact hnode _ rfl (identifier_spans hx)
  · obtain ⟨_, c₁, hopen, h⟩ := bind_eq_ok.1 h
    obtain ⟨inner, c₂, hinner, h⟩ := bind_eq_ok.1 h
    obtain ⟨_, c₃, hclose, h⟩ := expect_bind_passes rfl h
    obtain ⟨m, rfl, hnode⟩ := newExprFrom_passes h
    have hopen := (advance_spans hopen hk rfl).passes
    exact hnode _ rfl (hopen.trans ((hg.expression _ _ _ hinner).trans hclose)).spans_current
  · obtain ⟨_, c₁, hfun, h⟩ := bind_eq_ok.1 h
    obtain ⟨⟨params, body⟩, c₂, hfunction, h⟩ := bind_eq_ok.1 h
    obtain ⟨m, rfl, hnode⟩ := newExprFrom_passes h
    have hfun := (advance_spans hfun hk rfl).passes
    exact hnode _ rfl (hfun.trans (functionRest_passes hg hfunction)).spans_current
  · cases hv : literal? c.current with
    | some value =>
      rw [hv] at h
      exact literal_passes hv h
    | none =>
      rw [hv] at h
      exact absurd h failAt_ne_ok

theorem arguments_passes (hg : g.Exact) {args : List Expr} (h : arguments g c = .ok args d) :
    c.Passes (Part.listed (args.map Part.expr) ++ [.fixed .rightParen]) d := by
  rw [arguments, peekKind_bind, ite_bind] at h
  obtain ⟨args, c₁, hargs, h⟩ := bind_eq_ok.1 h
  obtain ⟨_, c₂, hclose, h⟩ := expect_bind_passes rfl h
  obtain ⟨rfl, rfl⟩ := pure_eq_ok.1 h
  refine Cursor.Passes.trans ?_ hclose
  split at hargs
  · obtain ⟨rfl, rfl⟩ := pure_eq_ok.1 hargs
    exact .refl c
  · exact commaList_passes (fun _ => hg.expression) hargs

/-- One turn of a chain of calls and properties. -/
theorem suffix_passes (hg : g.Exact) {c₀ : Cursor} {e : Expr} {r : Option Expr}
    (he : c₀.Passes [.expr e] c) (h : suffix g e c = .ok r d) :
    c₀.Passes [.expr (r.getD e)] d := by
  rcases accept_bind_passes rfl h with ⟨c₁, hopen, h⟩ | h
  · obtain ⟨args, c₂, hargs, h⟩ := bind_eq_ok.1 h
    obtain ⟨m, rfl, hnode⟩ := newExprFrom_passes h
    exact hnode (.call m e args) rfl (he.spans.merge_last (hopen.trans (arguments_passes hg hargs)))
  · rcases accept_bind_passes rfl h with ⟨c₁, hdot, h⟩ | h
    · obtain ⟨x, c₂, hx, h⟩ := bind_eq_ok.1 h
      obtain ⟨m, rfl, hnode⟩ := newExprFrom_passes h
      exact hnode (.get m e x) rfl (he.spans.merge_last (hdot.trans (identifier_spans hx).passes))
    · obtain ⟨rfl, rfl⟩ := pure_eq_ok.1 h
      exact he

theorem call_passes (hg : g.Exact) : ExactExpr (call g) := by
  intro c e d h
  obtain ⟨e₀, c₁, hprimary, h⟩ := bind_eq_ok.1 h
  exact iterate_ok (P := fun e d => c.Passes [.expr e] d)
    (fun _ _ _ _ he hstep => suffix_passes hg he hstep)
    (fun _ _ _ he hstep => suffix_passes hg he hstep) (primary_passes hg _ _ _ hprimary) h

theorem unary_passes (hg : g.Exact) : ExactExpr (unary g) := by
  intro c e d h
  rw [unary, peekKind_bind] at h
  cases hop : UnaryOp.ofKind? c.current.kind with
  | some op =>
    rw [hop] at h
    obtain ⟨t, c₁, hadv, h⟩ := bind_eq_ok.1 h
    obtain ⟨operand, c₂, hoperand, h⟩ := bind_eq_ok.1 h
    obtain ⟨m, rfl, hnode⟩ := newExpr_passes h
    have hop := advance_spans hadv (UnaryOp.ofKind?_eq_some hop).symm (by cases op <;> rfl)
    exact hnode _ rfl (hop.merge (.refl c₁) (hg.unary _ _ _ hoperand).spans)
  | none =>
    rw [hop] at h
    exact call_passes hg _ _ _ h

/-- One turn of a chain: an operator of the level and a further operand, or nothing. -/
theorem chainStep_passes {level : Level} {operand : Parser Expr} (ho : ExactExpr operand)
    {c₀ : Cursor} {left : Expr} {r : Option Expr} (hl : c₀.Passes [.expr left] c)
    (h : chainStep level operand left c = .ok r d) : c₀.Passes [.expr (r.getD left)] d := by
  rw [chainStep, peekKind_bind] at h
  cases hop : level.operator? c.current.kind with
  | none =>
    rw [hop] at h
    obtain ⟨rfl, rfl⟩ := pure_eq_ok.1 h
    exact hl
  | some op =>
    rw [hop] at h
    obtain ⟨t, c₁, hadv, h⟩ := bind_eq_ok.1 h
    obtain ⟨right, c₂, hright, h⟩ := bind_eq_ok.1 h
    obtain ⟨m, rfl, hnode⟩ := newExpr_passes h
    obtain ⟨hkind, -⟩ := Level.operator?_eq_some hop
    have hop := (advance_spans hadv hkind.symm op.isMark_kind).passes
    have hparts := hl.spans.merge hop (ho _ _ _ hright).spans
    cases op with
    | binary op => exact hnode (.binary m left op right) rfl hparts
    | logical op => exact hnode (.logical m left op right) rfl hparts

theorem chain_passes (hg : g.Exact) (levels : List Level) : ExactExpr (chain g levels) := by
  induction levels with
  | nil => exact unary_passes hg
  | cons level levels ih =>
    intro c e d h
    obtain ⟨e₀, c₁, hfirst, h⟩ := bind_eq_ok.1 h
    exact iterate_ok (P := fun e d => c.Passes [.expr e] d)
      (fun _ _ _ _ he hstep => chainStep_passes ih he hstep)
      (fun _ _ _ he hstep => chainStep_passes ih he hstep) (ih _ _ _ hfirst) h

/-- The target is a name or a property of an object, and what the assignment is written with starts
in the same way. -/
theorem assign_passes {c₀ : Cursor} {equals : Token} {target value e : Expr}
    (ht : target.grammatical)
    (hc : c₀.Spans [.expr target, .fixed .equal, .expr value] (target.span.merge value.span) c)
    (h : assign equals target value c = .ok e d) : c₀.Passes [.expr e] d := by
  unfold assign at h
  split at h
  · obtain ⟨_, _, ⟨⟩, h⟩ := bind_eq_ok.1 h
    obtain ⟨m, rfl, hnode⟩ := newExpr_passes h
    exact hnode _ rfl (hc.keep ht)
  · obtain ⟨_, _, ⟨⟩, h⟩ := bind_eq_ok.1 h
    obtain ⟨m, rfl, hnode⟩ := newExpr_passes h
    exact hnode _ rfl (hc.keep ht)
  · exact absurd h failAt_ne_ok

theorem assignment_passes (hg : g.Exact) (hsound : g.Sound) : ExactExpr (assignment g) := by
  intro c e d h
  obtain ⟨left, c₁, hleft, h⟩ := bind_eq_ok.1 h
  have hl := chain_passes hg _ _ _ _ hleft
  obtain ⟨-, hgram, -⟩ := chain_ok hsound (List.suffix_refl _) _ _ _ hleft
  rw [peekKind_bind] at h
  split at h
  · next hequal =>
    obtain ⟨t, c₂, hadv, h⟩ := bind_eq_ok.1 h
    obtain ⟨value, c₃, hvalue, h⟩ := bind_eq_ok.1 h
    have hequal := (advance_spans hadv (by simpa using hequal) rfl).passes
    exact assign_passes hgram (hl.spans.merge hequal (hg.expression _ _ _ hvalue).spans) h
  · obtain ⟨rfl, rfl⟩ := pure_eq_ok.1 h
    exact hl

/-! ### Statements -/

/-- After a first word of a kind, a reader that is told the span of the word consumes what its
statement is written with behind the word. -/
def ExactAfter (kind : Kind) (p : Span → Parser Stmt) : Prop :=
  ∀ (c₀ c : Cursor) s d, c₀.Passes [.fixed kind] c → p c₀.current.span c = .ok s d →
    c₀.Passes [.stmt s] d

theorem varDecl_passes (hg : g.Exact) : ExactAfter .varWord (varDecl g) := by
  intro c₀ c s d hword h
  obtain ⟨x, c₁, hx, h⟩ := bind_eq_ok.1 h
  have hx := hword.trans (identifier_spans hx).passes
  rcases accept_bind_passes rfl h with ⟨c₂, hequal, h⟩ | h
  · obtain ⟨value, c₃, hvalue, h⟩ := bind_eq_ok.1 h
    obtain ⟨e, he, rfl⟩ := map_eq_ok.1 hvalue
    obtain ⟨_, c₄, hend, h⟩ := expect_bind_passes rfl h
    obtain ⟨m, rfl, hnode⟩ := newStmt_passes h
    have hvalue := hequal.trans ((hg.expression _ _ _ he).trans hend)
    exact hnode _ rfl (hx.trans hvalue).spans_current
  · obtain ⟨value, c₃, hvalue, h⟩ := bind_eq_ok.1 h
    obtain ⟨rfl, rfl⟩ := pure_eq_ok.1 hvalue
    obtain ⟨_, c₄, hend, h⟩ := expect_bind_passes rfl h
    obtain ⟨m, rfl, hnode⟩ := newStmt_passes h
    exact hnode _ rfl (hx.trans hend).spans_current

theorem funDecl_passes (hg : g.Exact) : ExactAfter .funWord (funDecl g) := by
  intro c₀ c s d hword h
  obtain ⟨x, c₁, hx, h⟩ := bind_eq_ok.1 h
  obtain ⟨⟨params, body⟩, c₂, hfunction, h⟩ := bind_eq_ok.1 h
  obtain ⟨m, rfl, hnode⟩ := newStmt_passes h
  have hfunction := (identifier_spans hx).passes.trans (functionRest_passes hg hfunction)
  exact hnode _ rfl (hword.trans hfunction).spans_current

theorem classDecl_passes : ExactAfter .classWord classDecl := by
  intro c₀ c s d hword h
  obtain ⟨x, c₁, hx, h⟩ := bind_eq_ok.1 h
  obtain ⟨_, c₂, hopen, h⟩ := expect_bind_passes rfl h
  obtain ⟨_, c₃, hclose, h⟩ := expect_bind_passes rfl h
  obtain ⟨m, rfl, hnode⟩ := newStmt_passes h
  have hx := (identifier_spans hx).passes.trans (hopen.trans hclose)
  exact hnode _ rfl (hword.trans hx).spans_current

theorem print_passes (hg : g.Exact) : ExactAfter .printWord (print g) := by
  intro c₀ c s d hword h
  obtain ⟨e, c₁, he, h⟩ := bind_eq_ok.1 h
  obtain ⟨_, c₂, hend, h⟩ := expect_bind_passes rfl h
  obtain ⟨m, rfl, hnode⟩ := newStmt_passes h
  exact hnode _ rfl (hword.trans ((hg.expression _ _ _ he).trans hend)).spans_current

theorem block_passes (hg : g.Exact) : ExactAfter .leftBrace (block g) := by
  intro c₀ c s d hword h
  obtain ⟨body, c₁, hbody, h⟩ := bind_eq_ok.1 h
  obtain ⟨m, rfl, hnode⟩ := newStmt_passes h
  exact hnode _ rfl (hword.trans (blockBody_passes hg hbody)).spans_current

theorem ifElse_passes (hg : g.Exact) : ExactAfter .ifWord (ifElse g) := by
  intro c₀ c s d hword h
  obtain ⟨_, c₁, hopen, h⟩ := expect_bind_passes rfl h
  obtain ⟨e, c₂, he, h⟩ := bind_eq_ok.1 h
  obtain ⟨_, c₃, hclose, h⟩ := expect_bind_passes rfl h
  obtain ⟨t, c₄, ht, h⟩ := bind_eq_ok.1 h
  have hthen := hclose.trans (hg.declaration _ _ _ ht)
  have hif := hword.trans (hopen.trans ((hg.expression _ _ _ he).trans hthen))
  rcases accept_bind_passes rfl h with ⟨c₅, helse, h⟩ | h
  · obtain ⟨branch, c₆, hbranch, h⟩ := bind_eq_ok.1 h
    obtain ⟨b, hb, rfl⟩ := map_eq_ok.1 hbranch
    obtain ⟨m, rfl, hnode⟩ := newStmt_passes h
    exact hnode _ rfl (hif.trans (helse.trans (hg.declaration _ _ _ hb))).spans_current
  · obtain ⟨branch, c₆, hbranch, h⟩ := bind_eq_ok.1 h
    obtain ⟨rfl, rfl⟩ := pure_eq_ok.1 hbranch
    obtain ⟨m, rfl, hnode⟩ := newStmt_passes h
    exact hnode _ rfl hif.spans_current

theorem whileDo_passes (hg : g.Exact) : ExactAfter .whileWord (whileDo g) := by
  intro c₀ c s d hword h
  obtain ⟨_, c₁, hopen, h⟩ := expect_bind_passes rfl h
  obtain ⟨e, c₂, he, h⟩ := bind_eq_ok.1 h
  obtain ⟨_, c₃, hclose, h⟩ := expect_bind_passes rfl h
  obtain ⟨b, c₄, hb, h⟩ := bind_eq_ok.1 h
  obtain ⟨m, rfl, hnode⟩ := newStmt_passes h
  have hbody := hclose.trans (hg.declaration _ _ _ hb)
  exact hnode _ rfl (hword.trans (hopen.trans ((hg.expression _ _ _ he).trans hbody))).spans_current

theorem operand?_passes (hg : g.Exact) {value : Option Expr} (h : operand? g c = .ok value d) :
    c.Passes (value.map Part.expr).toList d := by
  rw [operand?, peekKind_bind] at h
  split at h
  · obtain ⟨rfl, rfl⟩ := pure_eq_ok.1 h
    exact .refl c
  · obtain ⟨e, he, rfl⟩ := map_eq_ok.1 h
    exact hg.expression _ _ _ he

theorem returns_passes (hg : g.Exact) : ExactAfter .returnWord (returns g) := by
  intro c₀ c s d hword h
  obtain ⟨value, c₁, hvalue, h⟩ := bind_eq_ok.1 h
  obtain ⟨_, c₂, hend, h⟩ := expect_bind_passes rfl h
  obtain ⟨m, rfl, hnode⟩ := newStmt_passes h
  exact hnode _ rfl (hword.trans ((operand?_passes hg hvalue).trans hend)).spans_current

theorem breaks_passes (hg : g.Exact) : ExactAfter .breakWord (breaks g) := by
  intro c₀ c s d hword h
  obtain ⟨value, c₁, hvalue, h⟩ := bind_eq_ok.1 h
  obtain ⟨_, c₂, hend, h⟩ := expect_bind_passes rfl h
  obtain ⟨m, rfl, hnode⟩ := newStmt_passes h
  exact hnode _ rfl (hword.trans ((operand?_passes hg hvalue).trans hend)).spans_current

theorem expression_passes (hg : g.Exact) (hsound : g.Sound) {s : Stmt}
    (h : Parser.expression g c.current.span c = .ok s d) : c.Passes [.stmt s] d := by
  obtain ⟨e, c₁, he, h⟩ := bind_eq_ok.1 h
  obtain ⟨_, c₂, hend, h⟩ := expect_bind_passes rfl h
  obtain ⟨m, rfl, hnode⟩ := newStmt_passes h
  exact hnode _ rfl ((assignment_passes hg hsound _ _ _ he).trans hend).spans_current

theorem afterWord?_passes (hg : g.Exact) {kind next : Kind} {p : Span → Parser Stmt}
    (h : afterWord? g kind next = some p) : kind.isMark ∧ ExactAfter kind p := by
  unfold afterWord? at h
  split at h
  · cases h; exact ⟨rfl, varDecl_passes hg⟩
  · cases h; exact ⟨rfl, classDecl_passes⟩
  · split at h
    · cases h; exact ⟨rfl, funDecl_passes hg⟩
    · cases h
  · cases h; exact ⟨rfl, print_passes hg⟩
  · cases h; exact ⟨rfl, block_passes hg⟩
  · cases h; exact ⟨rfl, ifElse_passes hg⟩
  · cases h; exact ⟨rfl, whileDo_passes hg⟩
  · cases h; exact ⟨rfl, returns_passes hg⟩
  · cases h; exact ⟨rfl, breaks_passes hg⟩
  · cases h

theorem declaration_passes (hg : g.Exact) (hsound : g.Sound) : ExactStmt (declaration g) := by
  intro c s d h
  rw [declaration, peek_bind, peekNextKind_bind] at h
  cases hword : afterWord? g c.current.kind c.nextKind with
  | some p =>
    rw [hword] at h
    obtain ⟨t, c₁, hadv, h⟩ := bind_eq_ok.1 h
    obtain ⟨hmark, hp⟩ := afterWord?_passes hg hword
    exact hp c c₁ s d (advance_spans hadv rfl hmark).passes h
  | none =>
    rw [hword] at h
    exact expression_passes hg hsound h

/-! ### Programs -/

theorem entry_exact (n : Nat) : (entry n).Exact := by
  induction n with
  | zero =>
    exact ⟨fun _ _ _ h => absurd h failAt_ne_ok, fun _ _ _ h => absurd h failAt_ne_ok,
      fun _ _ _ h => absurd h failAt_ne_ok⟩
  | succ n ih =>
    exact ⟨assignment_passes ih (entry_sound n), unary_passes ih,
      declaration_passes ih (entry_sound n)⟩

theorem program_passes {ss : List Stmt} (h : program c = .ok ss d) :
    c.Passes (ss.map Part.stmt) d := by
  obtain ⟨found, c₁, hloop, h⟩ := bind_eq_ok.1 h
  obtain ⟨rfl, rfl⟩ := pure_eq_ok.1 h
  exact statements_passes (fun kind => kind == .endOfInput)
    (declaration_passes (entry_exact _) (entry_sound _)) hloop

end Parser

/-- The nodes that are made for a program: those of its trees, and the targets of assignments. -/
def Program.made (p : Program) : List Node := p.nodes ++ p.targets.map Node.expr

/-- The trees of a program match its tokens, and targets match some of them. The nodes of the trees
and the targets are all that is made. -/
theorem parse_matches {names : NameTable} {ts : List Token} {eof : Token} {program : Program}
    (hts : ∀ t ∈ ts, t.isEnd = false) (heof : eof.isEnd)
    (h : (parse names (ts ++ [eof])).1 = .ok program) :
    Matches (program.statements.map Part.stmt) ts ∧ (∀ e ∈ program.targets, e.MatchesIn ts) ∧
      ∀ q ∈ NodeId.between ⟨0, 0⟩ ⟨program.exprCount, program.stmtCount⟩,
        ∃ n ∈ program.made, n.id = q := by
  unfold parse at h
  cases hprogram : Parser.program (.ofTokens names (ts ++ [eof])) with
  | error e d =>
    rw [hprogram] at h
    cases h
  | ok ss d =>
    rw [hprogram] at h
    cases h
    obtain ⟨used, hused⟩ := Parser.program_passes hprogram
    -- the trees are written with all tokens but the end marker, so that these are consumed
    have hyield : used.map Token.symbol = ts.map Token.symbol := by
      rw [(Parser.program_sound hts heof hprogram).1, hused.matched.yield, yieldAll_eq_flatMap,
        List.flatMap_map]
      rfl
    have hlength : used.length = ts.length := by simpa using congrArg List.length hyield
    obtain ⟨rfl, -⟩ := List.append_inj hused.rest.symm hlength
    obtain ⟨new, htargets, hmatches, hmade⟩ := hused.made
    obtain rfl : d.targets = new := by rw [htargets]; exact List.append_nil new
    refine ⟨hused.matched, fun e he => hmatches e (List.mem_reverse.1 he), fun q hq => ?_⟩
    obtain ⟨n, hn, rfl⟩ := hmade q hq
    refine ⟨n, ?_, rfl⟩
    rw [nodesOf_stmts] at hn
    simpa [Program.made, Program.nodes] using hn

end Lox
