import Lox.Proofs.Composition
import Lox.Proofs.NodeSpans
import Lox.Proofs.ParserTracing
import Lox.Proofs.Tiling

/-!
# Parts of a source on their own

The span of a node is the span of the tokens it is written with, and the text of the span is read as
the same node on its own. A node that is an expression is closed by a semicolon there.

* `Node.statement`, `Node.closing`: a node as a statement, and what closes it;
* `Node.ReadFrom`: a node that is read from a text on its own;
* `Node.ExactIn`: a node that has the span of its tokens, with the nodes below it in order, and is
  read from the text of this span;
* `Program.SpansExact`: all nodes of a program are such nodes;
* `exists_alone`: what is read from the tokens of a node;
* `spans_exact`.
-/

namespace Lox

/-! ### Nodes on their own -/

namespace Node

/-- A node as a statement, which has the mark `m` if it is not one itself. -/
def statement (m : Mark) : Node → Stmt
  | expr e => .expression m e
  | stmt s => s

/-- The text that closes a node on its own. -/
def closing : Node → String
  | expr _ => ";"
  | stmt _ => ""

/-- The symbols that close a node on its own. -/
def closingYield : Node → List Symbol
  | expr _ => [.fixed .semicolon]
  | stmt _ => []

/-- Whether a node is of the grammar. -/
def grammatical : Node → Bool
  | expr e => e.grammatical
  | stmt s => s.grammatical

/-- A text, with what closes the node, is read as this node and nothing else in every session, with
spans that are counted from the start of the text. -/
def ReadFrom (text : String) (n : Node) : Prop :=
  ∃ program : Program, (∀ s : Session, (s.read (text ++ n.closing)).1 = .ok program) ∧
    ∃ (m : Mark) (n' : Node), program.statements = [n'.statement m] ∧ n'.unmarked = n.unmarked ∧
      n'.nodes.map (·.span.shift n.span.start) = n.nodes.map span

/-- A node of a source with certain tokens. -/
structure ExactIn (source : String) (tokens : List Token) (n : Node) : Prop where
  /-- It is written with some of the tokens, and spans from the first of them to the last. -/
  tokens_eq : ∃ before used after first last, tokens = before ++ used ++ after ∧
    used.map Token.symbol = n.yield ∧ used.head? = some first ∧ used.getLast? = some last ∧
    n.span = ⟨first.span.start, last.span.stop⟩
  /-- The nodes directly below it are within its span, one after the other. -/
  inside : ∀ m ∈ n.children, n.span.start ≤ m.span.start ∧ m.span.stop ≤ n.span.stop
  in_order : n.children.Pairwise fun m m' => m.span.stop ≤ m'.span.start
  /-- It is read from the text of its span. -/
  alone : ∃ text, n.span.Covers source text ∧ n.ReadFrom text

end Node

/-- The nodes that were made for a program have exact spans in a source with certain tokens. -/
structure Program.SpansExact (source : String) (tokens : List Token) (p : Program) : Prop where
  /-- The statements are written with the tokens before the end marker, one after the other, and the
  nodes below with tokens of the nodes that they are below. -/
  matched : ∃ ts eof, tokens = ts ++ [eof] ∧ Matches (p.statements.map Part.stmt) ts
  /-- The nodes of the statements and the targets of assignments are all that was made. -/
  all : ∀ q ∈ NodeId.between ⟨0, 0⟩ ⟨p.exprCount, p.stmtCount⟩, ∃ n ∈ p.made, n.id = q
  exact_in : ∀ n ∈ p.made, n.ExactIn source tokens

namespace Node

theorem grammatical_child {n : Node} (h : n.grammatical) : ∀ m ∈ n.children, m.grammatical := by
  cases n with
  | expr e =>
    cases e <;>
      simp_all [grammatical, children, Expr.grammatical, grammaticalEach_iff, grammaticalAll_iff]
  | stmt s =>
    cases s with
    | varDecl _ _ e | returns _ e | breaks _ e =>
      cases e <;> simp_all [grammatical, children, Stmt.grammatical, grammaticalOption]
    | ifElse _ _ _ e =>
      cases e <;> simp_all [grammatical, children, Stmt.grammatical, grammaticalElse]
    | _ => simp_all [grammatical, children, Stmt.grammatical, grammaticalAll_iff]

@[simp] theorem grammatical_statement (n : Node) (m : Mark) :
    (n.statement m).grammatical = n.grammatical := by
  cases n <;> rfl

theorem yield_statement (n : Node) (m : Mark) :
    (n.statement m).yield = n.yield ++ n.closingYield := by
  cases n with
  | expr e => rfl
  | stmt s => exact (List.append_nil _).symm

theorem closingYield_unmarked (n : Node) : n.unmarked.closingYield = n.closingYield := by
  cases n <;> rfl

/-- A statement that is the same as a node up to marks. -/
theorem exists_statement {n : Node} {m : Mark} {s : Stmt}
    (h : s.unmarked = (n.statement m).unmarked) :
    ∃ (m' : Mark) (n' : Node), s = n'.statement m' ∧ n'.unmarked = n.unmarked := by
  cases n with
  | expr e =>
    cases s with
    | expression m' e' => exact ⟨m', .expr e', rfl, congrArg Node.expr (Stmt.expression.inj h).2⟩
    | _ => cases h
  | stmt s' => exact ⟨m, .stmt s, rfl, congrArg Node.stmt h⟩

theorem closing_closing (n : Node) : Closing n.closing.toList := by
  cases n with
  | expr e => simp [closing, Closing]
  | stmt s => simp [closing, Closing]

/-- The token that closes a node, if there is one, is read at the end of a text. -/
theorem lexFrom_closing (n : Node) (found : List Token) (p : Position) :
    ∃ close eof, lexFrom found p n.closing.toList = .ok (found.reverse ++ close ++ [eof]) ∧
      close.map Token.symbol = n.closingYield := by
  cases n with
  | expr e =>
    have hsemicolon : munch ';' ([] ++ []) = (.ok (.token .semicolon none), 0) := rfl
    have hlex : lexFrom found p ";".toList = _ := lexFrom_of_token hsemicolon
    rw [lexFrom, List.reverse_cons, List.reverse_cons] at hlex
    exact ⟨[tokenAt p [';'] .semicolon none], _, hlex, rfl⟩
  | stmt s =>
    have hlex : lexFrom found p "".toList = _ := lexFrom.eq_1 ..
    rw [List.reverse_cons, ← List.append_nil found.reverse] at hlex
    exact ⟨[], _, hlex, rfl⟩

end Node

/-- Where a node with what closes it matches tokens, the node matches those before. -/
theorem Matches.of_statement {n : Node} {m : Mark} {ts close : List Token}
    (h : Matches [.stmt (n.statement m)] (ts ++ close))
    (hclose : close.map Token.symbol = n.closingYield) : Matches [.node n] ts := by
  cases n with
  | stmt s =>
    obtain rfl : close = [] := List.map_eq_nil_iff.1 hclose
    rwa [List.append_nil] at h
  | expr e =>
    -- the parts of the statement are the expression and the semicolon, which is the last token
    obtain ⟨t, rfl, -⟩ := List.map_eq_singleton_iff.1 hclose
    generalize hall : ts ++ [t] = all at h
    cases h with
    | @node _ used _ _ _ inside tail =>
      cases tail
      cases inside with
      | @node _ used _ _ spanned inside tail =>
        cases tail with
        | symbol _ tail =>
          cases tail
          rw [List.append_nil] at hall
          obtain ⟨rfl, -⟩ := List.append_inj' hall rfl
          exact .of_exact ⟨spanned, inside⟩

/-- Tokens of a source, before the end marker, stand one after the other. -/
theorem successive_of_lex {source : String} {ts : List Token} {eof : Token}
    (h : lex source = .ok (ts ++ [eof])) : Successive ts := by
  obtain ⟨ts', line, heq, htiles⟩ := lexFrom_tiles h
  obtain ⟨rfl, -⟩ := List.append_inj' heq rfl
  refine ⟨htiles.pairwise, fun t ht => ?_⟩
  obtain ⟨before, -, -, hstart, hstop, -⟩ := htiles.exists_append t ht
  rw [hstart, hstop, utf8Length_append]
  omega

/-- The tokens of a node, with those that close it, are read as this node and nothing else. -/
theorem exists_alone {n : Node} {ts close : List Token} {eof : Token} (hn : n.grammatical)
    (hts : ts.map Token.symbol = n.yield) (hclose : close.map Token.symbol = n.closingYield)
    (hsolid : ∀ t ∈ ts ++ close, t.isEnd = false) (heof : eof.isEnd) :
    ∃ program : Program, (∀ names, (parse names (ts ++ close ++ [eof])).1 = .ok program) ∧
      ∃ (m : Mark) (n' : Node), program.statements = [n'.statement m] ∧
        n'.unmarked = n.unmarked ∧ Matches [.node n'] ts := by
  have hyield : (ts ++ close).map Token.symbol = yieldAll [n.statement .blank] := by
    rw [List.map_append, hts, hclose, ← n.yield_statement .blank, yieldAll_eq_flatMap,
      List.flatMap_singleton]
  have hahead : (Cursor.ofTokens .fresh (ts ++ close ++ [eof])).ahead =
      yieldAll [n.statement .blank] ++ [eof.symbol] := by
    rw [← hyield, ← List.map_singleton, ← List.map_append]
    rfl
  obtain ⟨ss, d, hprogram, htrees, -⟩ := Parser.program_takes
    (by simpa [grammaticalAll_iff] using hn) (by simpa [Token.isEnd] using heof) hahead
  have hparse : (parse .fresh (ts ++ close ++ [eof])).1 =
      .ok ⟨ss, d.exprCount, d.stmtCount, d.targets.reverse⟩ := by
    rw [parse, hprogram]
  rw [unmarkedAll_eq_map, unmarkedAll_eq_map] at htrees
  obtain ⟨s, hs, hs'⟩ := List.map_eq_singleton_iff.1 htrees
  obtain ⟨m, n', rfl, hn'⟩ := Node.exists_statement hs'
  have hmatches := (parse_matches hsolid heof hparse).1
  rw [hs] at hmatches
  refine ⟨_, fun names => by rw [parse_names names .fresh, hparse], m, n', hs, hn', ?_⟩
  refine hmatches.of_statement (hclose.trans ?_)
  rw [← n.closingYield_unmarked, ← hn', n'.closingYield_unmarked]

/-- A node that matches tokens of a source is read from the text of its span. -/
theorem Node.Exact.alone {source : String} {n : Node} {before used after : List Token}
    {eof : Token} (h : n.Exact used) (hn : n.grammatical) (hused : Successive used)
    (hlex : lex source = .ok (before ++ used ++ after ++ [eof])) :
    ∃ text, n.span.Covers source text ∧ n.ReadFrom text := by
  obtain ⟨first, last, hfirst, hlast, hspan⟩ := h.spanned.exists_ends hused
  obtain ⟨text, hcovers, hexcerpt⟩ := lex_excerpt hlex hfirst hlast
  obtain ⟨used', hshifted, hlex'⟩ := hexcerpt _ n.closing_closing
  obtain ⟨close, eof', hclosing, hclose⟩ :=
    n.lexFrom_closing used'.reverse (Position.start.afterAll text.toList)
  rw [hclosing, List.reverse_reverse, ← String.toList_append] at hlex'
  have hlex' : lex (text ++ n.closing) = .ok (used' ++ close ++ [eof']) := hlex'
  obtain ⟨ts, eof'', heq, heof, -, hsolid⟩ := lex_eq_ok hlex'
  obtain ⟨rfl, ⟨⟩⟩ := List.append_inj' heq rfl
  have hyield : used'.map Token.symbol = n.yield := by
    rw [n.yield_eq, ← h.matched.yield, ← List.forall₂_eq_eq_eq, List.forall₂_map_left_iff,
      List.forall₂_map_right_iff]
    exact hshifted.imp fun _ _ ht => ht.symbol
  have hspans : used'.map (·.span.shift n.span.start) = used.map Token.span := by
    rw [hspan, ← List.forall₂_eq_eq_eq, List.forall₂_map_left_iff, List.forall₂_map_right_iff]
    exact hshifted.imp fun _ _ ht => ht.span
  obtain ⟨program, hparse, m, n', hstatements, hn', hmatches⟩ :=
    exists_alone hn hyield hclose hsolid heof
  refine ⟨text, hspan ▸ hcovers, program, fun s => ?_, m, n', hstatements, hn', ?_⟩
  · exact Session.read_eq_ok_iff.2 ⟨_, hlex', hparse s.names⟩
  · have hused' : Successive used' :=
      (successive_of_lex hlex').sublist (List.sublist_append_left used' close)
    have hnodes := hmatches.spans_shift (.of_exact h) hused' hused
      (congrArg (fun n => [Part.node n]) hn') hspans
    rwa [nodesOf_singleton, nodesOf_singleton] at hnodes

/-- A node that matches tokens of a source has an exact span. -/
theorem Node.Exact.exactIn {source : String} {n : Node} {ts used : List Token} {eof : Token}
    (h : n.Exact used) (hn : n.grammatical) (hused : used <:+: ts)
    (hlex : lex source = .ok (ts ++ [eof])) : n.ExactIn source (ts ++ [eof]) := by
  have hsuccessive := (successive_of_lex hlex).sublist hused.sublist
  obtain ⟨before, after, rfl⟩ := hused
  obtain ⟨first, last, hfirst, hlast, hspan⟩ := h.spanned.exists_ends hsuccessive
  refine ⟨⟨before, used, after ++ [eof], first, last, by simp, ?_, hfirst, hlast, hspan⟩,
    fun m hm => ?_, ?_, h.alone hn hsuccessive hlex⟩
  · rw [h.matched.yield, n.yield_eq]
  · rw [n.children_eq] at hm
    obtain ⟨⟨t, ht, hstart⟩, u, hu, hstop⟩ := h.matched.within m hm
    rw [hspan, hstart, hstop]
    exact ⟨hsuccessive.head_le hfirst t ht, hsuccessive.le_last hlast u hu⟩
  · rw [n.children_eq]
    exact h.matched.pairwise hsuccessive

/-- **Spans are exact, and can be read on their own.** Whenever a source is read, its statements and
the nodes below them are written with its tokens. A node spans from the start of its first token to
the end of its last one, and the nodes directly below it are within its span, one after the other.
The text of the span, with a semicolon if the node is an expression, is read as this node and
nothing else, with spans that are counted from its start. This is also so for the left sides that
assignments took the place of, and nothing else was made. -/
theorem spans_exact {s : Session} {source : String} {program : Program}
    (h : (s.read source).1 = .ok program) :
    ∃ tokens, lex source = .ok tokens ∧ program.SpansExact source tokens := by
  obtain ⟨tokens, hlex, hparse⟩ := Session.read_eq_ok_iff.1 h
  obtain ⟨ts, eof, rfl, heof, -, hsolid⟩ := lex_eq_ok hlex
  obtain ⟨hmatches, htargets, hall⟩ := parse_matches hsolid heof hparse
  refine ⟨_, hlex, ⟨ts, eof, rfl, hmatches⟩, hall, fun n hn => ?_⟩
  rcases List.mem_append.1 hn with hn | hn
  · have hgram := grammaticalAll_iff.1 (written_of_read h).grammatical
    rw [Program.nodes, ← nodesOf_stmts] at hn
    obtain ⟨hgram, used, hused, hexact⟩ :=
      hmatches.exact_of_mem (P := fun n => n.grammatical) (fun n hn => Node.grammatical_child hn)
        (by simpa [Function.comp_def, Node.grammatical] using hgram) n hn
    exact hexact.exactIn hgram hused hlex
  · obtain ⟨e, he, rfl⟩ := List.mem_map.1 hn
    obtain ⟨hgram, used, hused, hexact⟩ := htargets e he
    exact hexact.exactIn hgram hused hlex

/-- Assignments to a name and to a property, in branches of an `if`. -/
def branchedSource : String :=
  "if (a == b) // then
  c.d = -f(1, fun (x) \x7b return x; \x7d)(2);
else \x7b
  e = (g or \"é\" + 1.5);
\x7d"

theorem spans_exact_branchedSource : ∃ program tokens,
    ((Session.start 0).read branchedSource).1 = .ok program ∧ program.targets.length = 2 ∧
      lex branchedSource = .ok tokens ∧ program.SpansExact branchedSource tokens := by
  have htargets : ((Session.start 0).read branchedSource).1.toOption.map (·.targets.length) =
      some 2 := by
    decide +kernel
  cases hread : ((Session.start 0).read branchedSource).1 with
  | error e => simp [hread, Except.toOption] at htargets
  | ok program =>
    rw [hread] at htargets
    obtain ⟨tokens, hlex, hspans⟩ := spans_exact hread
    exact ⟨program, tokens, rfl, Option.some.inj htargets, hlex, hspans⟩

end Lox
