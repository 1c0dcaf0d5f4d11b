import Mathlib.Data.List.Forall2
import Lox.Proofs.Excerpt
import Lox.Proofs.Nodes
import Lox.Proofs.Unmarked

/-!
# The parts of a node

A node is written with its parts, symbols and nodes, from left to right. It matches tokens when the
parts match them one after the other, and its span runs from the first of these tokens to the last.

* `Part`, `Node.parts`: what a node is written with;
* `Spanned`: a span that starts with a token and stops with one, around the first and the last;
* `Matches`, `Node.Exact`: parts, and a node, that match tokens;
* `Matches.exact_of_mem`: then all nodes below match some of these tokens;
* `Successive`, `Matches.pairwise`: in tokens one after the other, nodes stand one after the other;
* `Matches.spans_shift`: where a tree is read elsewhere, its spans are moved.
-/

namespace Lox

/-! ### Parts -/

/-- What a node is written with: a symbol, or a node below it. -/
inductive Part
  | symbol (s : Symbol)
  | node (n : Node)

/-- The symbols of a node. -/
def Node.yield : Node → List Symbol
  | expr e => e.yield
  | stmt s => s.yield

/-- A node without its marks. -/
def Node.unmarked : Node → Node
  | expr e => .expr e.unmarked
  | stmt s => .stmt s.unmarked

namespace Part

/-- A symbol that its kind determines. -/
def fixed (kind : Kind) : Part := symbol (.fixed kind)

/-- An expression. -/
def expr (e : Expr) : Part := node (.expr e)

/-- A statement. -/
def stmt (s : Stmt) : Part := node (.stmt s)

/-- A name. -/
def name (x : String) : Part := symbol (.name x)

/-- The symbols of a part. -/
def yield : Part → List Symbol
  | symbol s => [s]
  | node n => n.yield

/-- A part without its marks. -/
def unmarked : Part → Part
  | symbol s => symbol s
  | node n => node n.unmarked

/-- The node of a part that is no symbol. -/
def node? : Part → Option Node
  | symbol _ => none
  | node n => some n

/-- The first of several parts, and each further one after a comma. -/
def listed : List Part → List Part
  | [] => []
  | p :: ps => p :: ps.flatMap ([fixed .comma, ·])

/-- The parts of a parameter list and a body, from the opening parenthesis on. -/
def function (params : List String) (body : List Stmt) : List Part :=
  fixed .leftParen :: listed (params.map name) ++ fixed .rightParen :: fixed .leftBrace ::
    body.map stmt ++ [fixed .rightBrace]

/-- An expression behind a symbol, unless it is missing. -/
def initial (kind : Kind) (e : Option Part) : List Part := (e.map ([fixed kind, ·])).getD []

end Part

open Lox.Part in
/-- The parts of a node, from left to right. -/
def Node.parts : Node → List Part
  | expr (.literal _ v) => [symbol v.symbol]
  | expr (.group _ e) => [fixed .leftParen, .expr e, fixed .rightParen]
  | expr (.unary _ op e) => [fixed op.kind, .expr e]
  | expr (.binary _ l op r) => [.expr l, fixed op.kind, .expr r]
  | expr (.logical _ l op r) => [.expr l, fixed op.kind, .expr r]
  | expr (.var _ x) => [name x]
  | expr (.assign _ x e) => [name x, fixed .equal, .expr e]
  | expr (.call _ f args) =>
    .expr f :: fixed .leftParen :: listed (args.map Part.expr) ++ [fixed .rightParen]
  | expr (.lambda _ params body) => fixed .funWord :: function params body
  | expr (.get _ e x) => [.expr e, fixed .dot, name x]
  | expr (.set _ e x v) => [.expr e, fixed .dot, name x, fixed .equal, .expr v]
  | stmt (.expression _ e) => [.expr e, fixed .semicolon]
  | stmt (.print _ e) => [fixed .printWord, .expr e, fixed .semicolon]
  | stmt (.varDecl _ x e) =>
    fixed .varWord :: name x :: initial .equal (e.map Part.expr) ++ [fixed .semicolon]
  | stmt (.block _ body) => fixed .leftBrace :: body.map Part.stmt ++ [fixed .rightBrace]
  | stmt (.ifElse _ c t e) =>
    [fixed .ifWord, fixed .leftParen, .expr c, fixed .rightParen, .stmt t] ++
      initial .elseWord (e.map Part.stmt)
  | stmt (.whileDo _ c b) =>
    [fixed .whileWord, fixed .leftParen, .expr c, fixed .rightParen, .stmt b]
  | stmt (.funDecl _ x params body) => fixed .funWord :: name x :: function params body
  | stmt (.returns _ e) => fixed .returnWord :: (e.map Part.expr).toList ++ [fixed .semicolon]
  | stmt (.breaks _ e) => fixed .breakWord :: (e.map Part.expr).toList ++ [fixed .semicolon]
  | stmt (.classDecl _ x) => [fixed .classWord, name x, fixed .leftBrace, fixed .rightBrace]

namespace Part

@[simp] theorem node?_expr (e : Expr) : node? (expr e) = some (.expr e) := rfl

@[simp] theorem node?_stmt (s : Stmt) : node? (stmt s) = some (.stmt s) := rfl

@[simp] theorem node?_symbol (s : Symbol) : node? (symbol s) = none := rfl

@[simp] theorem node?_fixed (kind : Kind) : node? (fixed kind) = none := rfl

@[simp] theorem node?_name (x : String) : node? (name x) = none := rfl

@[simp] theorem yield_fixed (kind : Kind) : (fixed kind).yield = [.fixed kind] := rfl

@[simp] theorem yield_name (x : String) : (name x).yield = [.name x] := rfl

@[simp] theorem yield_expr (e : Expr) : (expr e).yield = e.yield := rfl

@[simp] theorem yield_stmt (s : Stmt) : (stmt s).yield = s.yield := rfl

@[simp] theorem unmarked_symbol (s : Symbol) : (symbol s).unmarked = symbol s := rfl

@[simp] theorem unmarked_fixed (kind : Kind) : (fixed kind).unmarked = fixed kind := rfl

@[simp] theorem unmarked_name (x : String) : (name x).unmarked = name x := rfl

@[simp] theorem unmarked_expr (e : Expr) : (expr e).unmarked = expr e.unmarked := rfl

@[simp] theorem unmarked_stmt (s : Stmt) : (stmt s).unmarked = stmt s.unmarked := rfl

theorem listed_concat {ps : List Part} (h : ps ≠ []) (p : Part) :
    listed (ps ++ [p]) = listed ps ++ [fixed .comma, p] := by
  cases ps with
  | nil => exact absurd rfl h
  | cons q qs => simp [listed]

theorem yield_listed (ps : List Part) :
    (listed ps).flatMap yield = separated (ps.map yield) := by
  cases ps with
  | nil => rfl
  | cons p ps => simp [listed, separated, List.flatMap_assoc, List.flatMap_map]

theorem node?_listed (ps : List Part) :
    (listed ps).filterMap node? = ps.filterMap node? := by
  cases ps with
  | nil => rfl
  | cons p ps =>
    have htail : (ps.flatMap ([fixed .comma, ·])).filterMap node? = ps.filterMap node? := by
      induction ps with
      | nil => rfl
      | cons p ps ih => simp [ih, List.filterMap_cons]
    rw [listed, List.filterMap_cons, List.filterMap_cons, htail]

theorem unmarked_listed (ps : List Part) :
    (listed ps).map unmarked = listed (ps.map unmarked) := by
  cases ps with
  | nil => rfl
  | cons p ps => simp [listed, List.map_flatMap, List.flatMap_map]

end Part

/-- The symbols of a node are those of its parts. -/
theorem Node.yield_eq (n : Node) : n.yield = n.parts.flatMap Part.yield := by
  cases n with
  | expr e =>
    cases e with
    | literal => rfl
    | _ => simp [Node.yield, parts, Expr.yield, Part.function, Part.yield_listed,
      yieldEach_eq_map, yieldAll_eq_flatMap, functionYield, List.flatMap_map, Function.comp_def]
  | stmt s =>
    cases s with
    | varDecl _ _ e => cases e <;> simp [Node.yield, parts, Stmt.yield, Part.initial, yieldInitial]
    | ifElse _ _ _ e => cases e <;> simp [Node.yield, parts, Stmt.yield, Part.initial, yieldElse]
    | returns _ e | breaks _ e => cases e <;> simp [Node.yield, parts, Stmt.yield, yieldOption]
    | _ => simp [Node.yield, parts, Stmt.yield, Part.function, Part.yield_listed,
      yieldAll_eq_flatMap, functionYield, List.flatMap_map, Function.comp_def]

/-- The nodes directly below a node are its parts that are no symbols. -/
theorem Node.children_eq (n : Node) : n.children = n.parts.filterMap Part.node? := by
  cases n with
  | expr e =>
    cases e <;> simp [children, parts, Part.function, Part.node?_listed, List.filterMap_cons,
      Function.comp_def]
  | stmt s =>
    cases s with
    | varDecl _ _ e => cases e <;> simp [children, parts, Part.initial, List.filterMap_cons]
    | ifElse _ _ _ e => cases e <;> simp [children, parts, Part.initial, List.filterMap_cons]
    | returns _ e | breaks _ e => cases e <;> simp [children, parts, List.filterMap_cons]
    | _ => simp [children, parts, Part.function, Part.node?_listed, List.filterMap_cons,
      Function.comp_def]

/-- Without marks, the parts are those without marks. -/
theorem Node.parts_unmarked (n : Node) : n.unmarked.parts = n.parts.map Part.unmarked := by
  cases n with
  | expr e =>
    cases e <;> simp [unmarked, parts, Expr.unmarked, Part.function, Part.unmarked_listed,
      unmarkedEach_eq_map, unmarkedAll_eq_map, Function.comp_def]
  | stmt s =>
    cases s with
    | varDecl _ _ e =>
      cases e <;> simp [unmarked, parts, Stmt.unmarked, Part.initial, unmarkedOption]
    | ifElse _ _ _ e =>
      cases e <;> simp [unmarked, parts, Stmt.unmarked, Part.initial, unmarkedElse]
    | returns _ e | breaks _ e => cases e <;> simp [unmarked, parts, Stmt.unmarked, unmarkedOption]
    | _ => simp [unmarked, parts, Stmt.unmarked, Part.function, Part.unmarked_listed,
      unmarkedAll_eq_map, Function.comp_def]

theorem Node.parts_unmarked_congr {n n' : Node} (h : n.unmarked = n'.unmarked) :
    n.parts.map Part.unmarked = n'.parts.map Part.unmarked := by
  rw [← parts_unmarked, ← parts_unmarked, h]

/-! ### Spans of tokens -/

/-- A span that starts with one of several tokens and stops with one of them, not after the start
of the first one and not before the end of the last one. -/
structure Spanned (ts : List Token) (s : Span) : Prop where
  start : ∃ t ∈ ts, s.start = t.span.start
  stop : ∃ t ∈ ts, s.stop = t.span.stop
  start_le : ∀ t ∈ ts.head?, s.start ≤ t.span.start
  le_stop : ∀ t ∈ ts.getLast?, t.span.stop ≤ s.stop

namespace Spanned

variable {ts us : List Token} {s s' : Span}

theorem ne_nil (h : Spanned ts s) : ts ≠ [] := by
  obtain ⟨t, ht, -⟩ := h.start
  exact List.ne_nil_of_mem ht

theorem singleton (t : Token) : Spanned [t] t.span := by
  refine ⟨⟨t, by simp, rfl⟩, ⟨t, by simp, rfl⟩, ?_, ?_⟩ <;> simp

/-- The span around two spans, the second of which is of tokens at the end. -/
theorem merge {all : List Token} (hs : Spanned ts s) (hs' : Spanned us s') (hts : ts <+: all)
    (hus : us <:+ all) : Spanned all (s.merge s') where
  start := by
    obtain ⟨t, ht, hst⟩ := hs.start
    obtain ⟨u, hu, hsu⟩ := hs'.start
    rcases Nat.le_total s.start s'.start with h | h
    · exact ⟨t, hts.subset ht, (Nat.min_eq_left h).trans hst⟩
    · exact ⟨u, hus.subset hu, (Nat.min_eq_right h).trans hsu⟩
  stop := by
    obtain ⟨t, ht, hst⟩ := hs.stop
    obtain ⟨u, hu, hsu⟩ := hs'.stop
    rcases Nat.le_total s.stop s'.stop with h | h
    · exact ⟨u, hus.subset hu, (Nat.max_eq_right h).trans hsu⟩
    · exact ⟨t, hts.subset ht, (Nat.max_eq_left h).trans hst⟩
  start_le t h := by
    obtain ⟨rest, rfl⟩ := hts
    rw [List.head?_append_of_ne_nil _ hs.ne_nil] at h
    exact Nat.le_trans (Nat.min_le_left _ _) (hs.start_le t h)
  le_stop t h := by
    obtain ⟨rest, rfl⟩ := hus
    rw [List.getLast?_append_of_ne_nil _ hs'.ne_nil] at h
    exact Nat.le_trans (hs'.le_stop t h) (Nat.le_max_right _ _)

/-- The span from one that comes first to the last token. -/
theorem merge_last {all : List Token} {t : Token} (hs : Spanned ts s) (hts : ts <+: all)
    (ht : all.getLast? = some t) : Spanned all (s.merge t.span) := by
  obtain ⟨us, rfl⟩ := List.getLast?_eq_some_iff.1 ht
  exact hs.merge (.singleton t) hts (List.suffix_append us [t])

end Spanned

/-! ### Matching tokens -/

/-- Parts that match tokens, one after the other. A symbol is that of one token. A node has the span
of its tokens, and its own parts match them. -/
inductive Matches : List Part → List Token → Prop
  | nil : Matches [] []
  | symbol {s : Symbol} {t : Token} {ps : List Part} {ts : List Token} (h : t.symbol = s)
      (tail : Matches ps ts) : Matches (.symbol s :: ps) (t :: ts)
  | node {n : Node} {used ts : List Token} {ps : List Part} (spanned : Spanned used n.span)
      (inside : Matches n.parts used) (tail : Matches ps ts) : Matches (.node n :: ps) (used ++ ts)

/-- A node that matches tokens, and has their span. -/
structure Node.Exact (n : Node) (ts : List Token) : Prop where
  spanned : Spanned ts n.span
  matched : Matches n.parts ts

namespace Matches

variable {ps qs : List Part} {ts us : List Token}

theorem append (h : Matches ps ts) (h' : Matches qs us) : Matches (ps ++ qs) (ts ++ us) := by
  induction h with
  | nil => exact h'
  | symbol hs _ ih => exact .symbol hs ih
  | node spanned inside _ _ ih =>
    rw [List.append_assoc]
    exact .node spanned inside ih

theorem of_exact {n : Node} (h : n.Exact ts) : Matches [.node n] ts := by
  rw [← List.append_nil ts]
  exact .node h.spanned h.matched .nil

theorem of_symbol {t : Token} {s : Symbol} (h : t.symbol = s) : Matches [.symbol s] [t] :=
  .symbol h .nil

theorem ne_nil {p : Part} (h : Matches (p :: ps) ts) : ts ≠ [] := by
  cases h with
  | symbol => exact List.cons_ne_nil _ _
  | node spanned => exact List.append_ne_nil_of_left_ne_nil spanned.ne_nil _

theorem yield (h : Matches ps ts) : ts.map Token.symbol = ps.flatMap Part.yield := by
  induction h with
  | nil => rfl
  | symbol hs _ ih => simp [Part.yield, hs, ih]
  | @node n _ _ _ _ _ _ inside tail => simp [Part.yield, n.yield_eq, inside, tail]

end Matches

/-- The nodes in parts, with all nodes below them. -/
def nodesOf (ps : List Part) : List Node := (ps.filterMap Part.node?).flatMap Node.nodes

@[simp] theorem nodesOf_symbol (s : Symbol) (ps : List Part) :
    nodesOf (.symbol s :: ps) = nodesOf ps := rfl

@[simp] theorem nodesOf_node (n : Node) (ps : List Part) :
    nodesOf (.node n :: ps) = n :: (nodesOf n.parts ++ nodesOf ps) := by
  have hnode : Part.node? (.node n) = some n := rfl
  rw [nodesOf, List.filterMap_cons, hnode, List.flatMap_cons, n.nodes_eq, n.children_eq]
  rfl

@[simp] theorem nodesOf_singleton (n : Node) : nodesOf [.node n] = n.nodes :=
  List.flatMap_singleton ..

theorem nodesOf_append (ps qs : List Part) : nodesOf (ps ++ qs) = nodesOf ps ++ nodesOf qs := by
  simp [nodesOf]

theorem nodesOf_stmts (ss : List Stmt) : nodesOf (ss.map Part.stmt) = nodesAll ss := by
  have hstmts : (ss.map Part.stmt).filterMap Part.node? = ss.map Node.stmt := by
    simp [Function.comp_def]
  rw [nodesOf, hstmts, nodesAll_eq]

/-- All nodes below match some of the tokens, and have what is passed down to them. -/
theorem Matches.exact_of_mem {P : Node → Prop} (hP : ∀ n, P n → ∀ m ∈ n.children, P m)
    {ps : List Part} {ts : List Token} (h : Matches ps ts)
    (hps : ∀ n ∈ ps.filterMap Part.node?, P n) :
    ∀ m ∈ nodesOf ps, P m ∧ ∃ used, used <:+: ts ∧ m.Exact used := by
  induction h with
  | nil => exact nofun
  | @symbol s t ps ts _ _ ih =>
    intro m hm
    obtain ⟨hPm, used, hused, hexact⟩ := ih hps m hm
    exact ⟨hPm, used, hused.trans (List.suffix_cons t ts).isInfix, hexact⟩
  | @node n used ts ps spanned inside _ ih ih' =>
    have hn : P n := hps n (List.mem_cons_self ..)
    rw [nodesOf_node]
    intro m hm
    rcases List.mem_cons.1 hm with rfl | hm
    · exact ⟨hn, used, (List.prefix_append used ts).isInfix, spanned, inside⟩
    rcases List.mem_append.1 hm with hm | hm
    · obtain ⟨hPm, used', hused', hexact⟩ := ih (n.children_eq ▸ hP n hn) m hm
      exact ⟨hPm, used', hused'.trans (List.prefix_append used ts).isInfix, hexact⟩
    · have hps := fun n hn => hps n (List.mem_cons_of_mem _ hn)
      obtain ⟨hPm, used', hused', hexact⟩ := ih' hps m hm
      exact ⟨hPm, used', hused'.trans (List.suffix_append used ts).isInfix, hexact⟩

/-! ### Tokens one after the other -/

/-- Tokens each of which stops before the next one starts. -/
structure Successive (ts : List Token) : Prop where
  pairwise : ts.Pairwise fun t u => t.span.stop ≤ u.span.start
  start_le_stop : ∀ t ∈ ts, t.span.start ≤ t.span.stop

namespace Successive

variable {ts us : List Token}

theorem sublist (h : Successive ts) (hus : us.Sublist ts) : Successive us :=
  ⟨h.pairwise.sublist hus, fun t ht => h.start_le_stop t (hus.subset ht)⟩

theorem head_le {t : Token} (h : Successive ts) (ht : ts.head? = some t) :
    ∀ u ∈ ts, t.span.start ≤ u.span.start := by
  cases ts with
  | nil => cases ht
  | cons t' ts =>
    cases ht
    intro u hu
    rcases List.mem_cons.1 hu with rfl | hu
    · exact Nat.le_refl _
    · exact Nat.le_trans (h.start_le_stop t (by simp)) (List.rel_of_pairwise_cons h.pairwise hu)

theorem le_last {t : Token} (h : Successive ts) (ht : ts.getLast? = some t) :
    ∀ u ∈ ts, u.span.stop ≤ t.span.stop := by
  obtain ⟨ts, rfl⟩ := List.getLast?_eq_some_iff.1 ht
  intro u hu
  rcases List.mem_append.1 hu with hu | hu
  · exact Nat.le_trans ((List.pairwise_append.1 h.pairwise).2.2 u hu t (by simp))
      (h.start_le_stop t (by simp))
  · cases List.mem_singleton.1 hu
    exact Nat.le_refl _

end Successive

namespace Spanned

variable {ts ts' : List Token} {s s' : Span}

/-- In successive tokens, the span starts with the first token and stops with the last one. -/
theorem exists_ends (h : Spanned ts s) (hts : Successive ts) :
    ∃ first last, ts.head? = some first ∧ ts.getLast? = some last ∧
      s = ⟨first.span.start, last.span.stop⟩ := by
  have hhead := List.head?_eq_some_head h.ne_nil
  have hlast := List.getLast?_eq_some_getLast h.ne_nil
  refine ⟨_, _, hhead, hlast, ?_⟩
  have hstart : s.start = (ts.head h.ne_nil).span.start := by
    obtain ⟨t, ht, hs⟩ := h.start
    exact Nat.le_antisymm (h.start_le _ hhead) (hs ▸ hts.head_le hhead t ht)
  have hstop : s.stop = (ts.getLast h.ne_nil).span.stop := by
    obtain ⟨t, ht, hs⟩ := h.stop
    exact Nat.le_antisymm (hs ▸ hts.le_last hlast t ht) (h.le_stop _ hlast)
  rw [← hstart, ← hstop]

/-- The span of tokens further on is further on. -/
theorem shift {offset : Nat} (h : Spanned ts s) (h' : Spanned ts' s') (hts : Successive ts)
    (hts' : Successive ts') (hspans : ts.map (·.span.shift offset) = ts'.map Token.span) :
    s.shift offset = s' := by
  obtain ⟨first, last, hfirst, hlast, rfl⟩ := h.exists_ends hts
  obtain ⟨first', last', hfirst', hlast', rfl⟩ := h'.exists_ends hts'
  have hstart : first.span.shift offset = first'.span := by
    simpa [hfirst, hfirst'] using congrArg List.head? hspans
  have hstop : last.span.shift offset = last'.span := by
    simpa [hlast, hlast'] using congrArg List.getLast? hspans
  exact congrArg₂ Span.mk (congrArg Span.start hstart) (congrArg Span.stop hstop)

end Spanned

namespace Matches

variable {ps ps' : List Part} {ts ts' : List Token}

/-- The spans of nodes lie between those of the tokens. -/
theorem within (h : Matches ps ts) : ∀ n ∈ ps.filterMap Part.node?,
    (∃ t ∈ ts, n.span.start = t.span.start) ∧ ∃ t ∈ ts, n.span.stop = t.span.stop := by
  induction h with
  | nil => exact nofun
  | @symbol s t ps ts _ _ ih =>
    intro n hn
    obtain ⟨⟨u, hu, hstart⟩, v, hv, hstop⟩ := ih n hn
    exact ⟨⟨u, .tail _ hu, hstart⟩, v, .tail _ hv, hstop⟩
  | @node n used ts ps spanned inside _ _ ih =>
    intro m hm
    rcases List.mem_cons.1 hm with rfl | hm
    · obtain ⟨⟨u, hu, hstart⟩, v, hv, hstop⟩ := And.intro spanned.start spanned.stop
      exact ⟨⟨u, List.mem_append_left _ hu, hstart⟩, v, List.mem_append_left _ hv, hstop⟩
    · obtain ⟨⟨u, hu, hstart⟩, v, hv, hstop⟩ := ih m hm
      exact ⟨⟨u, List.mem_append_right _ hu, hstart⟩, v, List.mem_append_right _ hv, hstop⟩

/-- The nodes of parts stand one after the other. -/
theorem pairwise (h : Matches ps ts) (ho : Successive ts) :
    (ps.filterMap Part.node?).Pairwise fun n m => n.span.stop ≤ m.span.start := by
  induction h with
  | nil => exact .nil
  | @symbol s t ps ts _ _ ih => exact ih (ho.sublist (List.sublist_cons_self t ts))
  | @node n used ts ps spanned inside tail _ ih =>
    refine .cons (fun m hm => ?_) (ih (ho.sublist (List.sublist_append_right used ts)))
    obtain ⟨t, ht, hstop⟩ := spanned.stop
    obtain ⟨⟨u, hu, hstart⟩, -⟩ := tail.within m hm
    rw [hstop, hstart]
    exact (List.pairwise_append.1 ho.pairwise).2.2 t ht u hu

/-- Parts that are the same up to marks match equally many tokens. -/
theorem length_eq (h : Matches ps ts) (h' : Matches ps' ts')
    (heq : ps.map Part.unmarked = ps'.map Part.unmarked) : ts.length = ts'.length := by
  induction h generalizing ps' ts' with
  | nil =>
    cases h' with
    | nil => rfl
    | symbol | node => cases heq
  | symbol _ _ ih =>
    cases h' with
    | nil => cases heq
    | symbol _ tail =>
      rw [List.length_cons, List.length_cons, ih tail (List.cons.inj heq).2]
    | node => cases (List.cons.inj heq).1
  | @node n _ _ _ _ _ _ ih ih' =>
    cases h' with
    | nil => cases heq
    | symbol => cases (List.cons.inj heq).1
    | @node n' _ _ _ _ inside tail =>
      have hparts := Node.parts_unmarked_congr (Part.node.inj (List.cons.inj heq).1)
      rw [List.length_append, List.length_append, ih inside hparts, ih' tail (List.cons.inj heq).2]

/-- Where the same parts match tokens further on, the spans of the nodes are further on. -/
theorem spans_shift {offset : Nat} (h : Matches ps ts) (h' : Matches ps' ts') (ho : Successive ts)
    (ho' : Successive ts') (heq : ps.map Part.unmarked = ps'.map Part.unmarked)
    (hts : ts.map (·.span.shift offset) = ts'.map Token.span) :
    (nodesOf ps).map (·.span.shift offset) = (nodesOf ps').map Node.span := by
  induction h generalizing ps' ts' with
  | nil =>
    cases h' with
    | nil => rfl
    | symbol | node => cases heq
  | symbol _ _ ih =>
    cases h' with
    | nil => cases heq
    | symbol _ tail =>
      rw [nodesOf_symbol, nodesOf_symbol]
      exact ih tail (ho.sublist (List.sublist_cons_self _ _))
        (ho'.sublist (List.sublist_cons_self _ _)) (List.cons.inj heq).2 (List.cons.inj hts).2
    | node => cases (List.cons.inj heq).1
  | @node n used ts ps spanned inside _ ih ih' =>
    cases h' with
    | nil => cases heq
    | symbol => cases (List.cons.inj heq).1
    | @node n' used' ts' ps' spanned' inside' tail' =>
      have hparts := Node.parts_unmarked_congr (Part.node.inj (List.cons.inj heq).1)
      have hlength := inside.length_eq inside' hparts
      rw [List.map_append, List.map_append] at hts
      obtain ⟨hused, hts⟩ := List.append_inj hts (by simpa using hlength)
      have hou := ho.sublist (List.sublist_append_left used ts)
      have hou' := ho'.sublist (List.sublist_append_left used' ts')
      have hspan : n.span.shift offset = n'.span := spanned.shift spanned' hou hou' hused
      rw [nodesOf_node, nodesOf_node, List.map_cons, List.map_cons, List.map_append,
        List.map_append, hspan, ih inside' hou hou' hparts hused,
        ih' tail' (ho.sublist (List.sublist_append_right used ts))
          (ho'.sublist (List.sublist_append_right used' ts')) (List.cons.inj heq).2 hts]

end Matches

end Lox
