import Lox.Problem
import Lox.Proofs.ParserTotality
import Lox.Proofs.ParserTracing

/-!
# What a reader foresees

A reader makes up its mind by the tokens that it consumes and the one ahead of it where it stops:
other tokens behind that one would not have changed what it did. So a program is rejected for the
first token that it cannot be continued with. Only the fault of a target that cannot be assigned to
is blamed on an earlier token, since the value is read first.

* `Cursor.facing`, `Parser.facing`: a place, or the end of a reading, with other tokens ahead;
* `Parser.Consumes`: a reader, at a place, consumes certain tokens and only looks at these and at
  the next;
* `Parser.Foreseen`, `Parser.Foresees`: this holds of some tokens, and at every place, with a rule
  for sequences and a lemma for each reader of the grammar;
* `Parser.foresees_declaration`: the look at the token behind `fun` is no exception, since `fun` is
  consumed in any case;
* `parse_error_local`.
-/

namespace Lox

/-- A place with other tokens ahead. -/
def Cursor.facing (c : Cursor) (ahead : List Token) : Cursor := { c with rest := ahead }

namespace Parser

variable {α β : Type} {c d : Cursor} {n : Nat}

/-- The place where a reader stops. -/
def stop : EStateM.Result ParseError Cursor α → Cursor
  | .ok _ d | .error _ d => d

/-- The end of a reading, with other tokens ahead. -/
def facing (r : EStateM.Result ParseError Cursor α) (ahead : List Token) :
    EStateM.Result ParseError Cursor α :=
  match r with
  | .ok a d => .ok a (d.facing ahead)
  | .error e d => .error e (d.facing ahead)

/-- A reader at `c` consumes the tokens `used`, at least `n` of them, and does the same before all
tokens that start with these and the next one. Unless it rejects a target, it blames the next. -/
structure Consumes (n : Nat) (x : Parser α) (c : Cursor) (used : List Token) : Prop where
  length_le : n ≤ used.length
  no_end : ∀ t ∈ used, t.isEnd = false
  rest_eq : c.rest = used ++ (stop (x c)).rest
  blames : ∀ e d, x c = .error e d → e.fault ≠ .invalidTarget → e = .ofToken e.fault d.current
  same : ∀ ahead, ahead.head? = (stop (x c)).rest.head? →
    x (c.facing (used ++ ahead)) = facing (x c) ahead

/-- A reader at a place only looks at the tokens that it consumes, at least `n`, and at the next. -/
def Foreseen (n : Nat) (x : Parser α) (c : Cursor) : Prop := ∃ used, Consumes n x c used

/-- At all places, a reader only looks at the tokens that it consumes and at the next. -/
def Foresees (x : Parser α) : Prop := ∀ c, Foreseen 0 x c

/-! ### Rules -/

theorem head?_append_congr {used ahead ahead' : List Token} (h : ahead.head? = ahead'.head?) :
    (used ++ ahead).head? = (used ++ ahead').head? := by
  rw [List.head?_append, List.head?_append, h]

theorem Foreseen.bind {x : Parser α} {f : α → Parser β} (hx : Foreseen n x c)
    (hf : ∀ a d, x c = .ok a d → Foreseen 0 (f a) d) : Foreseen n (x >>= f) c := by
  obtain ⟨used, hlen, hopen, hrest, hblames, hsame⟩ := hx
  cases hxc : x c with
  | error e d =>
    have hbind : (x >>= f) c = .error e d := bind_of_error hxc
    rw [hxc] at hrest hblames hsame
    refine ⟨used, hlen, hopen, by rwa [hbind], ?_, fun ahead hahead => ?_⟩
    · rw [hbind]
      rintro _ _ ⟨⟩ hfault
      exact hblames e d rfl hfault
    · rw [hbind] at hahead ⊢
      exact bind_of_error (hsame ahead hahead)
  | ok a d =>
    obtain ⟨used', -, hopen', hrest', hblames', hsame'⟩ := hf a d hxc
    have hbind : (x >>= f) c = f a d := bind_of_ok hxc
    rw [hxc] at hrest hsame
    refine ⟨used ++ used', ?_, ?_, ?_, ?_, fun ahead hahead => ?_⟩
    · rw [List.length_append]
      omega
    · intro t ht
      exact (List.mem_append.1 ht).elim (hopen t) (hopen' t)
    · rw [hbind, hrest, stop, hrest', List.append_assoc]
    · rw [hbind]
      exact hblames'
    · rw [hbind] at hahead ⊢
      have hnext : (used' ++ ahead).head? = d.rest.head? := by
        rw [hrest']
        exact head?_append_congr hahead
      rw [List.append_assoc, bind_of_ok (hsame _ hnext)]
      exact hsame' ahead hahead

theorem Foresees.bind {x : Parser α} {f : α → Parser β} (hx : Foresees x)
    (hf : ∀ a, Foresees (f a)) : Foresees (x >>= f) :=
  fun c => (hx c).bind fun a d _ => hf a d

theorem Foreseen.mono {m : Nat} {x : Parser α} (hx : Foreseen n x c) (h : m ≤ n) :
    Foreseen m x c := by
  obtain ⟨used, hx⟩ := hx
  exact ⟨used, { hx with length_le := Nat.le_trans h hx.length_le }⟩

theorem Foreseen.ite {p : Prop} [Decidable p] {x y : Parser α} (hx : p → Foreseen n x c)
    (hy : ¬ p → Foreseen n y c) : Foreseen n (if p then x else y) c := by
  split
  · next h => exact hx h
  · next h => exact hy h

/-- A reader that neither consumes a token nor looks at one. -/
theorem foresees_of_facing {x : Parser α} (hstop : ∀ c, (stop (x c)).rest = c.rest)
    (htarget : ∀ c e d, x c = .error e d → e.fault = .invalidTarget)
    (hfacing : ∀ c ahead, x (c.facing ahead) = facing (x c) ahead) : Foresees x :=
  fun c => ⟨[], Nat.le_refl 0, nofun, (hstop c).symm,
    fun e d h hfault => absurd (htarget c e d h) hfault, fun ahead _ => hfacing c ahead⟩

theorem foresees_pure {a : α} : Foresees (pure a) :=
  foresees_of_facing (fun _ => rfl) nofun fun _ _ => rfl

theorem Foresees.map {x : Parser α} {f : α → β} (hx : Foresees x) : Foresees (f <$> x) := by
  rw [← bind_pure_comp]
  exact hx.bind fun a => foresees_pure

theorem foresees_intern {text : String} : Foresees (intern text) :=
  foresees_of_facing (fun _ => rfl) nofun fun _ _ => rfl

theorem foresees_keepTarget {target : Expr} : Foresees (keepTarget target) :=
  foresees_of_facing (fun _ => rfl) nofun fun _ _ => rfl

theorem foresees_spanFrom {start : Span} : Foresees (spanFrom start) :=
  foresees_of_facing (fun _ => rfl) nofun fun _ _ => rfl

theorem foresees_newExpr {span : Span} : Foresees (newExpr span) :=
  foresees_of_facing (fun _ => rfl) nofun fun _ _ => rfl

theorem foresees_newStmt {start : Span} : Foresees (newStmt start) :=
  foresees_of_facing (fun _ => rfl) nofun fun _ _ => rfl

theorem foresees_invalidTarget {t : Token} : Foresees (failAt .invalidTarget t : Parser α) := by
  refine foresees_of_facing (fun _ => rfl) ?_ fun _ _ => rfl
  rintro c e d ⟨⟩
  rfl

/-- A reader may blame the token ahead. -/
theorem foreseen_failAt {fault : ParseFault} :
    Foreseen 0 (failAt fault c.current : Parser α) c := by
  refine ⟨[], Nat.le_refl 0, nofun, rfl, ?_, fun _ _ => rfl⟩
  rintro e d ⟨⟩ -
  rfl

theorem current_facing {ahead : List Token} (h : ahead.head? = c.rest.head?) :
    (c.facing ahead).current = c.current := by
  rw [Cursor.current, Cursor.current, List.headD_eq_head?_getD, List.headD_eq_head?_getD]
  exact congrArg (Option.getD · _) h

/-- A reader may look at the token ahead. -/
theorem Foreseen.peek {f : Token → Parser β} (h : Foreseen n (f c.current) c) :
    Foreseen n (peek >>= f) c := by
  obtain ⟨used, hlen, hopen, hrest, hblames, hsame⟩ := h
  refine ⟨used, hlen, hopen, hrest, hblames, fun ahead hahead => ?_⟩
  rw [peek_bind, current_facing ?_]
  · exact hsame ahead hahead
  · rw [hrest]
    exact head?_append_congr hahead

theorem Foreseen.peekKind {f : Kind → Parser β} (h : Foreseen n (f c.current.kind) c) :
    Foreseen n (peekKind >>= f) c :=
  Foreseen.peek (f := fun t => f t.kind) h

/-- A reader may look at the token behind the one ahead if it consumes that one in any case. -/
theorem Foreseen.peekNextKind {f : Kind → Parser β} (h : Foreseen 1 (f c.nextKind) c) :
    Foreseen 1 (peekNextKind >>= f) c := by
  obtain ⟨used, hlen, hopen, hrest, hblames, hsame⟩ := h
  refine ⟨used, hlen, hopen, hrest, hblames, fun ahead hahead => ?_⟩
  obtain ⟨t, used, rfl⟩ := List.exists_cons_of_length_pos hlen
  have hnext : (c.facing (t :: used ++ ahead)).nextKind = c.nextKind := by
    rw [Cursor.nextKind, Cursor.nextKind, hrest]
    exact congrArg (fun t? => (Option.map Token.kind t?).getD _) (head?_append_congr hahead)
  rw [peekNextKind_bind, hnext]
  exact hsame ahead hahead

/-! ### Basic readers -/

/-- The token ahead is consumed, if it is no end marker. -/
theorem foreseen_advance (h : c.current.kind ≠ .endOfInput) : Foreseen 1 advance c := by
  obtain ⟨rest, hrest, hadvance⟩ := advance_eq h
  have hend : c.current.isEnd = false := by simpa [Token.isEnd] using h
  refine ⟨[c.current], Nat.le_refl 1, by simpa, ?_, ?_, fun ahead _ => ?_⟩
  · rw [hadvance]
    exact hrest
  · rw [hadvance]
    rintro _ _ ⟨⟩
  · rw [hadvance]
    simp [advance, Cursor.facing, hend, facing]

theorem advance_at_end (h : c.current.kind = .endOfInput) : advance c = .ok c.current c := by
  unfold advance Cursor.current at *
  cases hrest : c.rest with
  | nil => rfl
  | cons t rest =>
    rw [hrest] at h
    exact if_pos (beq_iff_eq.2 h)

theorem foresees_advance : Foresees advance := by
  intro c
  by_cases h : c.current.kind = .endOfInput
  · have hadvance := advance_at_end h
    refine ⟨[], Nat.le_refl 0, nofun, ?_, ?_, fun ahead hahead => ?_⟩
    · rw [hadvance]
      rfl
    · rw [hadvance]
      rintro _ _ ⟨⟩
    · rw [hadvance] at hahead ⊢
      have hcurrent : (c.facing ahead).current = c.current := current_facing hahead
      rw [List.nil_append, advance_at_end (by rw [hcurrent, h]), hcurrent]
      rfl
  · exact (foreseen_advance h).mono (Nat.zero_le 1)

theorem foresees_accept (kind : Kind) : Foresees (accept kind) :=
  fun _ => .peekKind (.ite (fun _ => foresees_advance.bind (fun _ => foresees_pure) _)
    fun _ => foresees_pure _)

theorem foresees_expect (kind : Kind) (what : Expected) : Foresees (expect kind what) :=
  fun _ => .peek (.ite (fun _ => foresees_advance _) fun _ => foreseen_failAt)

theorem foresees_identifier (what : Expected) : Foresees (identifier what) :=
  (foresees_expect _ _).bind fun _ => foresees_intern.bind fun _ => foresees_pure

theorem foresees_iterate {step : α → Parser (Option α)} (hstep : ∀ a, Foresees (step a))
    (k : Nat) (a : α) : Foresees (iterate step k a) := by
  induction k generalizing a with
  | zero => exact foresees_pure
  | succ k ih =>
    refine (hstep a).bind fun b => ?_
    cases b with
    | none => exact foresees_pure
    | some b => exact ih b

/-! ### Lists -/

/-- Readers for the rules that contain themselves, all of which only look at the tokens that they
consume and at the next. -/
structure Entry.Foresees (g : Entry) : Prop where
  expression : Parser.Foresees g.expression
  unary : Parser.Foresees g.unary
  declaration : Parser.Foresees g.declaration

section Readers

variable {g : Entry} (hg : g.Foresees)

omit hg in
theorem foresees_commaList {item : List α → Parser α} (hitem : ∀ found, Foresees (item found)) :
    Foresees (commaList g item) := by
  refine (hitem []).bind fun a => ?_
  refine (foresees_iterate (fun found => ?_) _ _).bind fun found => foresees_pure
  refine (foresees_accept .comma).bind fun accepted => ?_
  cases accepted with
  | false => exact foresees_pure
  | true => exact (hitem found).bind fun b => foresees_pure

omit hg in
theorem foresees_parameter (found : List String) : Foresees (parameter found) :=
  fun _ => .ite (fun _ => .peek foreseen_failAt) fun _ => foresees_identifier _ _

include hg

theorem foresees_blockBody : Foresees (blockBody g) := by
  refine (foresees_iterate (fun found c => ?_) _ _).bind fun found =>
    (foresees_expect _ _).bind fun _ => foresees_pure
  exact .peekKind (.ite (fun _ => foresees_pure _) fun _ =>
    hg.declaration.bind (fun _ => foresees_pure) _)

theorem foresees_functionRest : Foresees (functionRest g) := by
  refine (foresees_expect _ _).bind fun _ c => .peekKind ?_
  rw [ite_bind]
  have hparams {b : Prop} [Decidable b] :
      Foresees (if b then pure [] else commaList g parameter) := fun _ =>
    .ite (fun _ => foresees_pure _) fun _ => foresees_commaList foresees_parameter _
  refine hparams.bind (fun params => ?_) c
  refine (foresees_expect _ _).bind fun _ => (foresees_expect _ _).bind fun _ => ?_
  exact (foresees_blockBody hg).bind fun body => foresees_pure

/-! ### Expressions -/

omit hg in
theorem foresees_literal (t : Token) (value : Literal) : Foresees (literal t value) := by
  have htext : Foresees (internText value) := by
    unfold internText
    split
    · exact foresees_intern
    · exact foresees_pure
  exact htext.bind fun _ => foresees_advance.bind fun _ => foresees_newExpr.bind fun _ =>
    foresees_pure

/-- What a primary expression starts with is consumed, if it is a `fun`. -/
theorem foreseen_primary (h : c.current.kind = .funWord) : Foreseen 1 (primary g) c := by
  refine .peek ?_
  rw [h]
  refine (foreseen_advance (by rw [h]; nofun)).bind fun _ d _ => ?_
  refine (foresees_functionRest hg).bind (fun rest => ?_) d
  exact foresees_spanFrom.bind fun _ => foresees_newExpr.bind fun _ => foresees_pure

theorem foresees_primary : Foresees (primary g) := by
  refine fun c => .peek ?_
  have fail : Foreseen 0 (failAt (.expected .expression) c.current : Parser Expr) c :=
    foreseen_failAt
  generalize c.current = t at fail ⊢
  split
  · exact (foresees_identifier _).bind (fun _ => foresees_newExpr.bind fun _ => foresees_pure) c
  · refine foresees_advance.bind (fun _ => hg.expression.bind fun inner => ?_) c
    exact (foresees_expect _ _).bind fun _ => foresees_spanFrom.bind fun _ =>
      foresees_newExpr.bind fun _ => foresees_pure
  · refine foresees_advance.bind (fun _ => (foresees_functionRest hg).bind fun rest => ?_) c
    exact foresees_spanFrom.bind fun _ => foresees_newExpr.bind fun _ => foresees_pure
  · split
    · exact foresees_literal _ _ c
    · exact fail

theorem foresees_arguments : Foresees (arguments g) := by
  refine fun c => .peekKind ?_
  rw [ite_bind]
  have hargs {b : Prop} [Decidable b] :
      Foresees (if b then pure [] else commaList g fun _ => g.expression) := fun _ =>
    .ite (fun _ => foresees_pure _) fun _ => foresees_commaList (fun _ => hg.expression) _
  exact hargs.bind (fun args => (foresees_expect _ _).bind fun _ => foresees_pure) c

theorem foresees_suffix (e : Expr) : Foresees (suffix g e) := by
  have node (f : Mark → Expr) :
      Foresees (do return some (f (← newExpr (← spanFrom e.span)))) :=
    foresees_spanFrom.bind fun _ => foresees_newExpr.bind fun _ => foresees_pure
  refine (foresees_accept .leftParen).bind fun called => ?_
  cases called with
  | true => exact (foresees_arguments hg).bind fun args => node _
  | false =>
    refine (foresees_accept .dot).bind fun dotted => ?_
    cases dotted with
    | true => exact (foresees_identifier _).bind fun name => node _
    | false => exact foresees_pure

/-- A primary expression, with what follows it, starts as soon as it does itself. -/
theorem foreseen_call (h : Foreseen n (primary g) c) : Foreseen n (call g) c :=
  h.bind fun e d _ => foresees_iterate (foresees_suffix hg) _ e d

theorem foresees_unary : Foresees (unary g) := by
  refine fun c => .peekKind ?_
  split
  · exact foresees_advance.bind (fun t => hg.unary.bind fun e => foresees_newExpr.bind fun _ =>
      foresees_pure) c
  · exact foreseen_call hg (foresees_primary hg c)

theorem foreseen_unary (h : c.current.kind = .funWord) : Foreseen 1 (unary g) c := by
  refine .peekKind ?_
  rw [h]
  exact foreseen_call hg (foreseen_primary hg h)

omit hg in
theorem foresees_chainStep {level : Level} {operand : Parser Expr} (ho : Foresees operand)
    (left : Expr) : Foresees (chainStep level operand left) := by
  refine fun c => .peekKind ?_
  split
  · exact foresees_advance.bind (fun _ => ho.bind fun e => foresees_newExpr.bind fun _ =>
      foresees_pure) c
  · exact foresees_pure c

theorem foresees_chain (levels : List Level) : Foresees (chain g levels) := by
  induction levels with
  | nil => exact foresees_unary hg
  | cons level levels ih =>
    exact ih.bind fun e => foresees_iterate (fun e => foresees_chainStep ih e) _ e

theorem foreseen_chain (levels : List Level) (h : c.current.kind = .funWord) :
    Foreseen 1 (chain g levels) c := by
  induction levels with
  | nil => exact foreseen_unary hg h
  | cons level levels ih =>
    exact ih.bind fun e d _ =>
      foresees_iterate (fun e => foresees_chainStep (foresees_chain hg levels) e) _ e d

omit hg in
/-- Whether a target can be assigned to is not up to the tokens ahead. -/
theorem foresees_assign (equals : Token) (target value : Expr) :
    Foresees (assign equals target value) := by
  unfold assign
  dsimp only
  split
  · exact foresees_keepTarget.bind fun _ => foresees_newExpr.bind fun _ => foresees_pure
  · exact foresees_keepTarget.bind fun _ => foresees_newExpr.bind fun _ => foresees_pure
  · exact foresees_invalidTarget

theorem foreseen_assignment (h : Foreseen n (chain g Level.all) c) :
    Foreseen n (assignment g) c := by
  refine h.bind fun left d _ => .peekKind (.ite (fun _ => ?_) fun _ => foresees_pure d)
  exact foresees_advance.bind (fun equals => hg.expression.bind fun value =>
    foresees_assign equals left value) d

/-! ### Statements -/

section Statements

variable {start : Span}

omit hg in
/-- The end of a statement: a semicolon, and the mark of its node. -/
theorem foresees_endStmt (what : Expected) (f : Mark → Stmt) :
    Foresees (do
      let _ ← expect .semicolon what
      return f (← newStmt start)) :=
  (foresees_expect _ _).bind fun _ => foresees_newStmt.bind fun _ => foresees_pure

theorem foresees_operand? : Foresees (operand? g) :=
  fun _ => .peekKind (.ite (fun _ => foresees_pure _) fun _ => hg.expression.map _)

theorem foresees_varDecl : Foresees (varDecl g start) := by
  refine (foresees_identifier _).bind fun name => (foresees_accept _).bind fun given => ?_
  rw [ite_bind]
  cases given with
  | true => exact hg.expression.map.bind fun value => foresees_endStmt _ _
  | false => exact foresees_pure.bind fun value => foresees_endStmt _ _

theorem foresees_funDecl : Foresees (funDecl g start) :=
  (foresees_identifier _).bind fun _ => (foresees_functionRest hg).bind fun _ =>
    foresees_newStmt.bind fun _ => foresees_pure

omit hg in
theorem foresees_classDecl : Foresees (classDecl start) :=
  (foresees_identifier _).bind fun _ => (foresees_expect _ _).bind fun _ =>
    (foresees_expect _ _).bind fun _ => foresees_newStmt.bind fun _ => foresees_pure

theorem foresees_print : Foresees (print g start) :=
  hg.expression.bind fun _ => foresees_endStmt _ _

theorem foresees_block : Foresees (block g start) :=
  (foresees_blockBody hg).bind fun _ => foresees_newStmt.bind fun _ => foresees_pure

theorem foresees_ifElse : Foresees (ifElse g start) := by
  refine (foresees_expect _ _).bind fun _ => hg.expression.bind fun condition => ?_
  refine (foresees_expect _ _).bind fun _ => hg.declaration.bind fun thenBranch => ?_
  refine (foresees_accept _).bind fun more => ?_
  rw [ite_bind]
  have node (branch : Option Stmt) :
      Foresees (do return Stmt.ifElse (← newStmt start) condition thenBranch branch) :=
    foresees_newStmt.bind fun _ => foresees_pure
  cases more with
  | true => exact hg.declaration.map.bind fun branch => node branch
  | false => exact foresees_pure.bind fun branch => node branch

theorem foresees_whileDo : Foresees (whileDo g start) := by
  refine (foresees_expect _ _).bind fun _ => hg.expression.bind fun condition => ?_
  refine (foresees_expect _ _).bind fun _ => hg.declaration.bind fun body => ?_
  exact foresees_newStmt.bind fun _ => foresees_pure

theorem foresees_returns : Foresees (returns g start) :=
  (foresees_operand? hg).bind fun _ => foresees_endStmt _ _

theorem foresees_breaks : Foresees (breaks g start) :=
  (foresees_operand? hg).bind fun _ => foresees_endStmt _ _

theorem foreseen_expression (h : Foreseen n (chain g Level.all) c) :
    Foreseen n (Parser.expression g start) c :=
  (foreseen_assignment hg h).bind fun _ d _ => foresees_endStmt _ _ d

/-- What a first word selects, which is no end marker. -/
theorem foresees_afterWord {kind next : Kind} {rest : Span → Parser Stmt} (start : Span)
    (h : afterWord? g kind next = some rest) : kind ≠ .endOfInput ∧ Foresees (rest start) := by
  unfold afterWord? at h
  split at h
  · cases h
    exact ⟨nofun, foresees_varDecl hg⟩
  · cases h
    exact ⟨nofun, foresees_classDecl⟩
  · split at h
    · cases h
      exact ⟨nofun, foresees_funDecl hg⟩
    · cases h
  · cases h
    exact ⟨nofun, foresees_print hg⟩
  · cases h
    exact ⟨nofun, foresees_block hg⟩
  · cases h
    exact ⟨nofun, foresees_ifElse hg⟩
  · cases h
    exact ⟨nofun, foresees_whileDo hg⟩
  · cases h
    exact ⟨nofun, foresees_returns hg⟩
  · cases h
    exact ⟨nofun, foresees_breaks hg⟩
  · cases h

end Statements

theorem foreseen_declarationFrom {next : Kind} (hn : n ≤ 1)
    (h : Foreseen n (chain g Level.all) c) : Foreseen n (declarationFrom g c.current next) c := by
  unfold declarationFrom
  split
  · next rest hrest =>
    obtain ⟨hend, hforesees⟩ := foresees_afterWord hg c.current.span hrest
    exact ((foreseen_advance hend).mono hn).bind fun _ d _ => hforesees d
  · exact foreseen_expression hg h

/-- After `fun`, a function is read with or without a name, and either reader consumes the `fun`.
So the token behind it is looked at too early, but not in vain. -/
theorem foresees_declaration : Foresees (declaration g) := by
  intro c
  rw [declaration_eq]
  refine .peek (.ite (fun hfun => ?_) fun _ => ?_)
  · exact (Foreseen.peekNextKind (foreseen_declarationFrom hg (Nat.le_refl 1)
      (foreseen_chain hg _ hfun))).mono (Nat.zero_le 1)
  · exact foreseen_declarationFrom hg (Nat.zero_le 1) (foresees_chain hg _ c)

theorem foresees_programOver : Foresees (programOver g) := by
  refine (foresees_iterate (fun found c => ?_) _ _).bind fun _ => foresees_pure
  exact .peekKind (.ite (fun _ => foresees_pure _) fun _ =>
    (foresees_declaration hg).bind (fun _ => foresees_pure) _)

end Readers

theorem entry_foresees (k : Nat) : (entry k).Foresees := by
  induction k with
  | zero =>
    refine ⟨?_, ?_, ?_⟩
    · exact fun _ => .peek foreseen_failAt
    · exact fun _ => .peek foreseen_failAt
    · exact fun _ => .peek foreseen_failAt
  | succ k ih =>
    rw [entry_succ]
    exact ⟨fun c => foreseen_assignment ih (foresees_chain ih _ c), foresees_unary ih,
      foresees_declaration ih⟩

/-! ### Token lists -/

/-- A list with an end marker may be read by readers that can be nested deeper than it is long. -/
theorem programOver_entry {tokens : List Token} (hend : ∃ t ∈ tokens, t.isEnd)
    (names : NameTable) (h : tokens.length ≤ n) :
    programOver (entry n) (.ofTokens names tokens) = program (.ofTokens names tokens) := by
  obtain ⟨F, rfl, hlen, hright⟩ := exists_fork hend rfl
  have hbehind : F.behind' = F.behind := by
    rw [Fork.left] at hright
    simpa using hright
  have hdeep : (entry n).Unfolds (F.before.length + 1) := (entry_unfolds n).mono (by
    rw [Fork.left, List.length_append, List.length_cons] at h
    omega)
  have hruns := same_program F names hdeep
  rw [hright] at hruns
  exact (hruns.ends.eq hbehind).symm

/-- What a rejected program has consumed, whatever bounds the readers. -/
theorem program_error {tokens : List Token} (hend : ∃ t ∈ tokens, t.isEnd) {names : NameTable}
    {e : ParseError} (h : program (.ofTokens names tokens) = .error e d) (hn : tokens.length ≤ n) :
    ∃ used, tokens = used ++ d.rest ∧ (∀ t ∈ used, t.isEnd = false) ∧
      (e.fault ≠ .invalidTarget → e = .ofToken e.fault d.current) ∧
      ∀ ahead, ahead.head? = d.rest.head? →
        programOver (entry n) ((Cursor.ofTokens names tokens).facing (used ++ ahead)) =
          .error e (d.facing ahead) := by
  obtain ⟨used, -, hopen, hrest, hblames, hsame⟩ :=
    foresees_programOver (entry_foresees n) (.ofTokens names tokens)
  rw [programOver_entry hend names hn, h] at hrest hblames hsame
  exact ⟨used, hrest, hopen, hblames e d rfl, hsame⟩

/-- A list that starts with tokens that are rejected already. -/
theorem error_of_program_error {tokens tokens' used behind behind' : List Token} {t : Token}
    (hend : ∃ t ∈ tokens, t.isEnd) (hend' : ∃ t ∈ tokens', t.isEnd) {names : NameTable}
    {e : ParseError} (h : program (.ofTokens names tokens) = .error e d)
    (hrest : d.rest = t :: behind) (htokens : tokens = used ++ t :: behind)
    (htokens' : tokens' = used ++ t :: behind') : (parse names tokens').1 = .error e := by
  have hlength := Nat.le_max_left tokens.length tokens'.length
  have hlength' := Nat.le_max_right tokens.length tokens'.length
  obtain ⟨used', hused, -, -, hsame⟩ := program_error hend h hlength
  obtain rfl : used' = used := by
    rw [htokens, hrest] at hused
    exact (List.append_cancel_right hused).symm
  have hstart : (Cursor.ofTokens names tokens).facing tokens' = .ofTokens names tokens' := by
    rw [htokens, htokens']
    cases used' <;> rfl
  have herror := hsame (t :: behind') (by rw [hrest]; rfl)
  rw [← htokens', hstart, programOver_entry hend' names hlength'] at herror
  rw [parse, herror]

theorem le_firstEnd {used rest : List Token} (h : ∀ t ∈ used, t.isEnd = false) :
    used.length ≤ firstEnd (used ++ rest) := by
  have hused : ¬ used.findIdx Token.isEnd < used.length := by
    rw [List.findIdx_lt_length]
    rintro ⟨t, ht, hisEnd⟩
    rw [h t ht] at hisEnd
    cases hisEnd
  rw [firstEnd, List.findIdx_append, if_neg hused]
  exact Nat.le_add_left _ _

end Parser

open Lox.Parser

/-- **A parse error is local to the token that it is blamed on.** Unless it is about the target of
an assignment, it reports one of the tokens up to the first end marker, and all token lists with
the same tokens up to that one are rejected with the same error. -/
theorem parse_error_local (names : NameTable) {tokens : List Token} {e : ParseError}
    (hend : ∃ t ∈ tokens, t.isEnd) (h : (parse names tokens).1 = .error e)
    (hcode : e.fault.code = .unexpectedToken ∨ e.fault.code = .tooManyParameters) :
    ∃ k t, k ≤ firstEnd tokens ∧ tokens[k]? = some t ∧ e = .ofToken e.fault t ∧
      ∀ names' tokens', (∃ t ∈ tokens', t.isEnd) →
        tokens'.take (k + 1) = tokens.take (k + 1) → (parse names' tokens').1 = .error e := by
  have hfault : e.fault ≠ .invalidTarget := by
    intro hinvalid
    rw [hinvalid] at hcode
    rcases hcode with hcode | hcode <;> cases hcode
  obtain ⟨d, hd⟩ : ∃ d, program (.ofTokens names tokens) = .error e d := by
    rw [parse] at h
    split at h
    · cases h
    · next d hd =>
      cases h
      exact ⟨d, hd⟩
  obtain ⟨used, hused, hopen, hblames, -⟩ := program_error hend hd (Nat.le_refl _)
  -- the first end marker is not consumed, so that there is a token to be blamed
  obtain ⟨t, behind, hrest⟩ : ∃ t behind, d.rest = t :: behind := by
    obtain ⟨m, hm, hisEnd⟩ := hend
    apply List.exists_cons_of_ne_nil
    intro hnil
    rw [hused, hnil, List.append_nil] at hm
    rw [hopen m hm] at hisEnd
    cases hisEnd
  have hcurrent : d.current = t := by rw [Cursor.current, hrest, List.headD_cons]
  rw [hrest] at hused
  refine ⟨used.length, t, ?_, ?_, hcurrent ▸ hblames hfault, fun names' tokens' hend' htake => ?_⟩
  · rw [hused]
    exact le_firstEnd hopen
  · simp [hused]
  · have htokens' : tokens' = used ++ t :: tokens'.drop (used.length + 1) := by
      have htake' : tokens.take (used.length + 1) = used ++ [t] := by
        rw [hused, List.append_cons, List.take_left' (by simp)]
      conv_lhs => rw [← List.take_append_drop (used.length + 1) tokens', htake, htake',
        List.append_assoc, List.singleton_append]
    rw [parse_names names' names]
    exact error_of_program_error hend hend' hd hrest hused htokens'

/-- The tokens of a variable that is given a value without an equals sign. -/
def numberForEqual : List Token :=
  [⟨.varWord, "var", none, 1, ⟨0, 3⟩⟩, ⟨.identifier, "x", none, 1, ⟨4, 5⟩⟩,
    ⟨.integer, "1", some (.int 1), 1, ⟨6, 7⟩⟩, .endOfInput 1 7]

/-- The number is unexpected, whatever follows it. -/
theorem parse_error_local_numberForEqual :
    ∃ k t, k ≤ firstEnd numberForEqual ∧ numberForEqual[k]? = some t ∧
      (⟨.expected .semicolonAfterVariable, ⟨6, 7⟩, 1, some "1"⟩ : ParseError) =
        .ofToken (.expected .semicolonAfterVariable) t ∧
      ∀ names' tokens', (∃ t ∈ tokens', t.isEnd) →
        tokens'.take (k + 1) = numberForEqual.take (k + 1) →
        (parse names' tokens').1 =
          .error ⟨.expected .semicolonAfterVariable, ⟨6, 7⟩, 1, some "1"⟩ :=
  parse_error_local .fresh ⟨_, .tail _ (.tail _ (.tail _ (.head _))), rfl⟩ rfl (.inl rfl)

end Lox
