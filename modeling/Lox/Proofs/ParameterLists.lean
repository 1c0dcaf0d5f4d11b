import Lox.Proofs.FullLists

/-!
# Too many parameters

Which token lists are rejected for too many parameters, and what is blamed in them.

* `Counting`: a reader is counted at all places, with a lemma for each reader of the grammar;
* `Decided`: tokens that decide what is made of all lists that start with them;
* `too_many_parameters_iff`.
-/

namespace Lox

namespace Parser

variable {α : Type} {c d : Cursor} {l : FullList} {before behind : List Token}

/-! ### Lists -/

/-- At all places, a reader is counted. -/
def Counting (x : Parser α) : Prop := ∀ c, Counted c (x c)

/-- The readers that are entered again are counted. -/
structure Entry.Counting (g : Entry) : Prop where
  expression : Parser.Counting g.expression
  unary : Parser.Counting g.unary
  declaration : Parser.Counting g.declaration

section Readers

variable {g : Entry} (hg : g.Counting)

include hg

theorem counting_commaList : Counting (commaList g fun _ => g.expression) := by
  refine fun c => (hg.expression c).bind fun _ _ _ => ?_
  refine Counted.bind (counted_iterate (fun found c => ?_) _ _) fun _ _ _ => counted_of_rest_eq rfl
  refine (counted_accept (by decide)).bind fun accepted d _ => ?_
  cases accepted with
  | false => exact counted_of_rest_eq rfl
  | true => exact (hg.expression d).bind fun _ _ _ => counted_of_rest_eq rfl

theorem counting_blockBody : Counting (blockBody g) := by
  refine fun c => Counted.bind (counted_iterate (fun found c => ?_) _ _) fun _ _ _ =>
    (counted_expect (by decide) _).bind fun _ _ _ => counted_of_rest_eq rfl
  rw [peekKind_bind]
  split
  · exact counted_of_rest_eq rfl
  · exact (hg.declaration c).bind fun _ _ _ => counted_of_rest_eq rfl

theorem functionRest_counted (c : Cursor) : CountedFunction c (functionRest g c) := by
  rw [functionRest_eq]
  exact (parameterList_counted c).bind fun _ d _ =>
    (counting_blockBody hg d).bind fun _ _ _ => counted_of_rest_eq rfl

/-! ### Expressions -/

omit hg in
theorem counted_literal (t : Token) (value : Literal) (h : c.current.kind ≠ .funWord) :
    Counted c (literal t value c) := by
  cases htext : internText value c with
  | error e d =>
    unfold internText at htext
    split at htext <;> cases htext
  | ok u d =>
    obtain ⟨hrest, hlast⟩ := internText_ok htext
    have hcurrent : d.current = c.current := by
      rw [Cursor.current, hrest, hlast, ← Cursor.current]
    have hd : Counted d ((do
        let _ ← advance
        return .literal (← newExpr t.span) value : Parser Expr) d) :=
      (counted_advance (by rwa [hcurrent])).bind fun _ _ _ => counted_of_rest_eq rfl
    have hc : Counted c (internText value c) := htext ▸ counted_of_rest_eq hrest
    refine hc.bind fun u' d' h' => ?_
    rw [htext] at h'
    cases h'
    exact hd

theorem counting_primary : Counting (primary g) := by
  intro c
  rw [primary, peek_bind]
  generalize hkind : c.current.kind = kind
  split
  · exact (counted_identifier _).bind fun _ _ _ => counted_of_rest_eq rfl
  · refine (counted_advance (by simp [hkind])).bind fun _ d _ => (hg.expression d).bind
      fun _ _ _ => ?_
    exact (counted_expect (by decide) _).bind fun _ _ _ => counted_of_rest_eq rfl
  · obtain ⟨rest, hrest, hadvance⟩ := advance_eq (c := c) (by simp [hkind])
    rw [bind_of_ok hadvance]
    have hfunction := functionRest_counted hg { c with rest, last := c.current.span }
    refine CountedFunction.counted (CountedFunction.bind hfunction fun _ _ _ => ?_) hkind none
      (by simp) hrest
    exact counted_of_rest_eq rfl
  · next hfun =>
    cases hvalue : literal? c.current with
    | some value => exact counted_literal _ _ (by rwa [hkind])
    | none => exact counted_failAt (by simp) _

theorem counting_arguments : Counting (arguments g) := by
  intro c
  rw [arguments, peekKind_bind, ite_bind]
  have hargs : Counted c ((if c.current.kind == .rightParen then pure [] else
      commaList g fun _ => g.expression) c) := by
    split
    · exact counted_of_rest_eq rfl
    · exact counting_commaList hg c
  exact hargs.bind fun _ _ _ => (counted_expect (by decide) _).bind fun _ _ _ =>
    counted_of_rest_eq rfl

theorem counting_suffix (e : Expr) : Counting (suffix g e) := by
  refine fun c => (counted_accept (by decide)).bind fun called d _ => ?_
  cases called with
  | true => exact (counting_arguments hg d).bind fun _ _ _ => counted_of_rest_eq rfl
  | false =>
    refine Counted.bind (counted_accept (by decide)) fun dotted d _ => ?_
    cases dotted with
    | true => exact (counted_identifier _).bind fun _ _ _ => counted_of_rest_eq rfl
    | false => exact counted_of_rest_eq rfl

theorem counting_call : Counting (call g) :=
  fun c => (counting_primary hg c).bind fun _ _ _ =>
    counted_iterate (fun e => counting_suffix hg e) _ _

theorem counting_unary : Counting (unary g) := by
  intro c
  rw [unary, peekKind_bind]
  cases hop : UnaryOp.ofKind? c.current.kind with
  | some op =>
    have hkind : c.current.kind ≠ .funWord := by
      intro hfun
      rw [hfun] at hop
      cases hop
    exact (counted_advance hkind).bind fun _ d _ => (hg.unary d).bind fun _ _ _ =>
      counted_of_rest_eq rfl
  | none => exact counting_call hg c

omit hg in
theorem counting_chainStep {level : Level} {operand : Parser Expr} (ho : Counting operand)
    (left : Expr) : Counting (chainStep level operand left) := by
  intro c
  rw [chainStep, peekKind_bind]
  cases hop : level.operator? c.current.kind with
  | some op =>
    have hkind : c.current.kind ≠ .funWord := by
      intro hfun
      rw [hfun] at hop
      cases level <;> cases hop
    exact (counted_advance hkind).bind fun _ d _ => (ho d).bind fun _ _ _ => counted_of_rest_eq rfl
  | none => exact counted_of_rest_eq rfl

theorem counting_chain (levels : List Level) : Counting (chain g levels) := by
  induction levels with
  | nil => exact counting_unary hg
  | cons level levels ih =>
    exact fun c => (ih c).bind fun _ _ _ => counted_iterate (counting_chainStep ih) _ _

omit hg in
theorem counted_assign (equals : Token) (target value : Expr) :
    Counted c (assign equals target value c) := by
  cases target with
  | var | get => exact counted_of_rest_eq rfl
  | _ => exact counted_failAt (by simp) _

theorem counting_assignment : Counting (assignment g) := by
  refine fun c => (counting_chain hg _ c).bind fun left d _ => ?_
  rw [peekKind_bind]
  split
  · next hequal =>
    refine (counted_advance (by simp [eq_of_beq hequal])).bind fun _ d _ => ?_
    exact (hg.expression d).bind fun _ _ _ => counted_assign _ _ _
  · exact counted_of_rest_eq rfl

/-! ### Statements -/

section Statements

variable {start : Span}

omit hg in
/-- The end of a statement: a semicolon, and the mark of its node. -/
theorem counted_endStmt (what : Expected) (f : Mark → Stmt) :
    Counted c ((do
      let _ ← expect .semicolon what
      return f (← newStmt start)) c) :=
  (counted_expect (by decide) _).bind fun _ _ _ => counted_of_rest_eq rfl

theorem counting_operand? : Counting (operand? g) := by
  intro c
  rw [operand?, peekKind_bind]
  split
  · exact counted_of_rest_eq rfl
  · rw [← bind_pure_comp]
    exact (hg.expression c).bind fun _ _ _ => counted_of_rest_eq rfl

theorem counting_varDecl : Counting (varDecl g start) := by
  refine fun c => (counted_identifier _).bind fun name d _ => ?_
  refine Counted.bind (counted_accept (by decide)) fun given d _ => ?_
  cases given with
  | true =>
    have hvalue : Counted d ((some <$> g.expression) d) := by
      rw [← bind_pure_comp]
      exact (hg.expression d).bind fun _ _ _ => counted_of_rest_eq rfl
    exact hvalue.bind fun _ _ _ => counted_endStmt _ _
  | false => exact counted_endStmt _ _

/-- What follows the `fun` of a function with a name. -/
theorem counted_funDecl {word name : Token} {rest : List Token} (hword : word.kind = .funWord)
    (hname : name.kind = .identifier) (hc : c.rest = word :: d.rest) (hd : d.rest = name :: rest) :
    Counted c (funDecl g start d) := by
  obtain ⟨d', hidentifier, rfl⟩ := identifier_of_rest hd hname .functionName
  have hfunction := functionRest_counted hg d'
  rw [funDecl, bind_of_ok hidentifier]
  refine CountedFunction.counted (CountedFunction.bind hfunction fun _ _ _ => ?_) hword (some name)
    (by simpa using hname) (by rw [hc, hd]; rfl)
  exact counted_of_rest_eq rfl

omit hg in
theorem counting_classDecl : Counting (classDecl start) := fun c =>
  (counted_identifier _).bind fun _ _ _ => (counted_expect (by decide) _).bind fun _ _ _ =>
    (counted_expect (by decide) _).bind fun _ _ _ => counted_of_rest_eq rfl

theorem counting_print : Counting (print g start) := fun c =>
  (hg.expression c).bind fun _ _ _ => counted_endStmt _ _

theorem counting_block : Counting (block g start) := fun c =>
  (counting_blockBody hg c).bind fun _ _ _ => counted_of_rest_eq rfl

theorem counting_ifElse : Counting (ifElse g start) := by
  refine fun c => (counted_expect (by decide) _).bind fun _ d _ => (hg.expression d).bind
    fun condition d _ => ?_
  refine Counted.bind (counted_expect (by decide) _) fun _ d _ => (hg.declaration d).bind
    fun thenBranch d _ => ?_
  refine Counted.bind (counted_accept (by decide)) fun more d _ => ?_
  cases more with
  | true =>
    have hbranch : Counted d ((some <$> g.declaration) d) := by
      rw [← bind_pure_comp]
      exact (hg.declaration d).bind fun _ _ _ => counted_of_rest_eq rfl
    exact hbranch.bind fun _ _ _ => counted_of_rest_eq rfl
  | false => exact counted_of_rest_eq rfl

theorem counting_whileDo : Counting (whileDo g start) := fun c =>
  (counted_expect (by decide) _).bind fun _ d _ => (hg.expression d).bind fun _ d _ =>
    (counted_expect (by decide) _).bind fun _ d _ => (hg.declaration d).bind fun _ _ _ =>
      counted_of_rest_eq rfl

theorem counting_returns : Counting (returns g start) := fun c =>
  (counting_operand? hg c).bind fun _ _ _ => counted_endStmt _ _

theorem counting_breaks : Counting (breaks g start) := fun c =>
  (counting_operand? hg c).bind fun _ _ _ => counted_endStmt _ _

theorem counting_expression : Counting (Parser.expression g start) := fun c =>
  (counting_assignment hg c).bind fun _ _ _ => counted_endStmt _ _

/-- What a first word selects, unless it is the `fun` of a function with a name. -/
theorem counting_afterWord {kind next : Kind} {rest : Span → Parser Stmt} (start : Span)
    (h : afterWord? g kind next = some rest) (hkind : kind ≠ .funWord) :
    Counting (rest start) := by
  unfold afterWord? at h
  split at h
  · cases h
    exact counting_varDecl hg
  · cases h
    exact counting_classDecl
  · exact absurd rfl hkind
  · cases h
    exact counting_print hg
  · cases h
    exact counting_block hg
  · cases h
    exact counting_ifElse hg
  · cases h
    exact counting_whileDo hg
  · cases h
    exact counting_returns hg
  · cases h
    exact counting_breaks hg
  · cases h

end Statements

omit hg in
theorem exists_name_of_nextKind {t : Token} {behind : List Token} (hc : c.rest = t :: behind)
    (h : c.nextKind = .identifier) :
    ∃ name more, behind = name :: more ∧ name.kind = .identifier := by
  rw [Cursor.nextKind, hc, List.tail_cons] at h
  cases behind with
  | nil => cases h
  | cons name more => exact ⟨name, more, rfl, h⟩

theorem counting_declaration : Counting (declaration g) := by
  intro c
  rw [declaration, peek_bind, peekNextKind_bind]
  cases hword : afterWord? g c.current.kind c.nextKind with
  | none => exact counting_expression hg c
  | some rest =>
    by_cases hkind : c.current.kind = .funWord
    · -- a function with a name, since the word has selected a reader
      rw [hkind, afterWord?] at hword
      split at hword
      · next hnext =>
        cases hword
        obtain ⟨behind, hrest, hadvance⟩ := advance_eq (c := c) (by simp [hkind])
        obtain ⟨name, more, rfl, hname⟩ := exists_name_of_nextKind hrest (eq_of_beq hnext)
        show Counted c ((advance >>= fun _ => funDecl g c.current.span) c)
        rw [bind_of_ok hadvance]
        exact counted_funDecl hg hkind hname hrest rfl
      · cases hword
    · exact (counted_advance hkind).bind fun _ d _ => counting_afterWord hg _ hword hkind d

theorem counting_programOver : Counting (programOver g) := by
  refine fun c => Counted.bind (counted_iterate (fun found c => ?_) _ _) fun _ _ _ =>
    counted_of_rest_eq rfl
  rw [peekKind_bind]
  split
  · exact counted_of_rest_eq rfl
  · exact (counting_declaration hg c).bind fun _ _ _ => counted_of_rest_eq rfl

end Readers

theorem entry_counting (n : Nat) : (entry n).Counting := by
  induction n with
  | zero =>
    exact ⟨fun _ => counted_failAt (by simp) _, fun _ => counted_failAt (by simp) _,
      fun _ => counted_failAt (by simp) _⟩
  | succ n ih =>
    rw [entry_succ]
    exact ⟨counting_assignment ih, counting_unary ih, counting_declaration ih⟩

/-! ### Programs -/

/-- A reading that stops within the tokens that two lists start with is the same for both. -/
theorem program_reread {front more behind' : List Token} {names : NameTable} (hmore : more ≠ [])
    (hend : ∃ t ∈ front ++ behind, t.isEnd) (hend' : ∃ t ∈ front ++ behind', t.isEnd)
    (h : (stop (program (.ofTokens names (front ++ behind)))).rest = more ++ behind) :
    program (.ofTokens names (front ++ behind')) =
      facing (program (.ofTokens names (front ++ behind))) (more ++ behind') := by
  have hlength := Nat.le_max_left (front ++ behind).length (front ++ behind').length
  have hlength' := Nat.le_max_right (front ++ behind).length (front ++ behind').length
  generalize max (front ++ behind).length (front ++ behind').length = n at hlength hlength'
  obtain ⟨used, -, -, hrest, -, hsame⟩ :=
    foresees_programOver (entry_foresees n) (.ofTokens names (front ++ behind))
  rw [programOver_entry hend names hlength] at hrest hsame
  obtain rfl : front = used ++ more := by
    rw [h, ← List.append_assoc] at hrest
    exact List.append_cancel_right hrest
  have hhead : (more ++ behind').head? = (more ++ behind).head? := by
    obtain ⟨t, more, rfl⟩ := List.exists_cons_of_ne_nil hmore
    rfl
  have hstart : (Cursor.ofTokens names (used ++ more ++ behind)).facing (used ++ (more ++ behind')) =
      .ofTokens names (used ++ more ++ behind') := by
    obtain ⟨t, more, rfl⟩ := List.exists_cons_of_ne_nil hmore
    rw [List.append_assoc used]
    cases used <;> simp [Cursor.ofTokens, Cursor.facing]
  have hread := hsame (more ++ behind') (by rw [h, hhead])
  rwa [hstart, programOver_entry hend' names hlength'] at hread

/-- A program with a full list is read to an end before `behind`, or what is behind the list is
blamed. -/
theorem program_meets (names : NameTable)
    (hend : ∃ t ∈ before ++ l.tokens ++ behind, t.isEnd) :
    (∃ more ≠ [], (stop (program (.ofTokens names (before ++ l.tokens ++ behind)))).rest =
        more ++ behind) ∨
      ∃ d, program (.ofTokens names (before ++ l.tokens ++ behind)) =
        .error (.ofToken .tooManyParameters d.current) d ∧ d.rest = behind := by
  have hcounted := counting_programOver (entry_counting (before ++ l.tokens ++ behind).length)
    (.ofTokens names (before ++ l.tokens ++ behind))
  rw [programOver_entry hend names (Nat.le_refl _)] at hcounted
  have hmeets := hcounted.meets l before behind (List.append_assoc ..)
  generalize program (.ofTokens names (before ++ l.tokens ++ behind)) = r at hmeets
  cases hmeets with
  | @before a d more hd =>
    refine .inl ⟨more ++ l.tokens, by simp [FullList.tokens], ?_⟩
    rw [List.append_assoc]
    exact hd
  | fails hfails =>
    cases hfails with
    | @early e d t more hd => exact .inl ⟨t :: more, List.cons_ne_nil _ _, hd⟩
    | @full d hd => exact .inr ⟨d, rfl, hd⟩

/-- If what is behind a full list is blamed in one program, it is in all others. -/
theorem program_full {behind' : List Token} {names : NameTable} {e : ParseError}
    (hend : ∃ t ∈ before ++ l.tokens ++ behind, t.isEnd)
    (hend' : ∃ t ∈ before ++ l.tokens ++ behind', t.isEnd)
    (h : program (.ofTokens names (before ++ l.tokens ++ behind)) = .error e d)
    (hd : d.rest = behind) :
    ∃ d', program (.ofTokens names (before ++ l.tokens ++ behind')) =
      .error (.ofToken .tooManyParameters d'.current) d' ∧ d'.rest = behind' := by
  rcases program_meets names hend' with ⟨more, hmore, hstop⟩ | hfull
  · -- the other program would end this one before the list does
    have hread := program_reread hmore hend' hend hstop
    rw [h] at hread
    generalize program (.ofTokens names (before ++ l.tokens ++ behind')) = r at hread
    cases r with
    | ok => cases hread
    | error e' d' =>
      cases hread
      have hlength := congrArg List.length hd
      have hpos := List.length_pos_iff.2 hmore
      simp only [Cursor.facing, List.length_append] at hlength
      omega
  · exact hfull

/-- A program in which too many parameters are found has a full list before the blamed token. -/
theorem full_of_program_error {tokens : List Token} {names : NameTable} {e : ParseError}
    (hend : ∃ t ∈ tokens, t.isEnd) (h : program (.ofTokens names tokens) = .error e d)
    (hmany : e.fault = .tooManyParameters) :
    e = .ofToken .tooManyParameters d.current ∧
      ∃ before, ∃ l : FullList, tokens = before ++ l.tokens ++ d.rest := by
  have hcounted := counting_programOver (entry_counting tokens.length) (.ofTokens names tokens)
  rw [programOver_entry hend names (Nat.le_refl _)] at hcounted
  obtain ⟨hblamed, before, l, htokens⟩ := hcounted.finds e d h hmany
  exact ⟨hblamed, before, l, htokens.trans (List.append_assoc ..).symm⟩

/-- The first end marker is not consumed, so that there is a token to be blamed. -/
theorem exists_rest_of_program_error {tokens : List Token} {names : NameTable} {e : ParseError}
    (hend : ∃ t ∈ tokens, t.isEnd) (h : program (.ofTokens names tokens) = .error e d) :
    ∃ t behind, d.rest = t :: behind := by
  obtain ⟨used, hused, hopen, -⟩ := program_error hend h (Nat.le_refl _)
  obtain ⟨m, hm, hisEnd⟩ := hend
  apply List.exists_cons_of_ne_nil
  intro hnil
  rw [hused, hnil, List.append_nil] at hm
  rw [hopen m hm] at hisEnd
  cases hisEnd

end Parser

open Lox.Parser

/-- What is made of all lists that start with these tokens, and have an end marker behind them, is
the same: they have been rejected, or read to an end. -/
def Decided (front : List Token) : Prop :=
  ∃ outcome, ∀ names behind, (∃ t ∈ behind, t.isEnd) →
    (parse names (front ++ behind)).1 = outcome

theorem decided_of_stop {front more behind : List Token} {names : NameTable} (hmore : more ≠ [])
    (hend : ∃ t ∈ front ++ behind, t.isEnd)
    (h : (stop (program (.ofTokens names (front ++ behind)))).rest = more ++ behind) :
    Decided front := by
  refine ⟨(parse names (front ++ behind)).1, fun names' behind' hend' => ?_⟩
  have hend' : ∃ t ∈ front ++ behind', t.isEnd :=
    hend'.imp fun t ht => ⟨List.mem_append_right _ ht.1, ht.2⟩
  rw [parse_names names' names, parse, parse, program_reread hmore hend hend' h]
  cases program (.ofTokens names (front ++ behind)) <;> rfl

theorem not_decided_of_full {before behind : List Token} {l : FullList} {names : NameTable}
    {e : ParseError} {d : Cursor} (hend : ∃ t ∈ before ++ l.tokens ++ behind, t.isEnd)
    (h : program (.ofTokens names (before ++ l.tokens ++ behind)) = .error e d)
    (hd : d.rest = behind) : ¬ Decided (before ++ l.tokens) := by
  rintro ⟨outcome, hdecided⟩
  have blamed (line : Nat) :
      outcome = .error (.ofToken .tooManyParameters (.endOfInput line 0)) := by
    have hend' : ∃ t ∈ [Token.endOfInput line 0], t.isEnd := ⟨_, .head _, rfl⟩
    obtain ⟨d', hprogram, hd'⟩ := program_full hend
      (hend'.imp fun t ht => ⟨List.mem_append_right _ ht.1, ht.2⟩) h hd
    rw [← hdecided names _ hend', parse, hprogram, Cursor.current, hd']
    rfl
  -- the line of the token behind the list is reported
  have := (blamed 1).symm.trans (blamed 2)
  cases this

/-- **Too many parameters.** A token list is rejected for too many parameters if and only if it has
a function, anywhere, that names as many as a function may have and has a comma behind each of them,
and that is reached: the tokens up to the last comma do not decide what is made of the list. Then
the token behind that comma is blamed, be it a further name or not. -/
theorem too_many_parameters_iff (names : NameTable) {tokens : List Token} (e : ParseError)
    (hend : ∃ t ∈ tokens, t.isEnd) :
    (parse names tokens).1 = .error e ∧ e.fault.code = .tooManyParameters ↔
      ∃ (before : List Token) (l : FullList) (t : Token) (behind : List Token),
        tokens = before ++ l.tokens ++ t :: behind ∧ ¬ Decided (before ++ l.tokens) ∧
          e = .ofToken .tooManyParameters t := by
  constructor
  · rintro ⟨h, hcode⟩
    have hmany : e.fault = .tooManyParameters := by
      cases hfault : e.fault with
      | tooManyParameters => rfl
      | expected | invalidTarget =>
        rw [hfault] at hcode
        cases hcode
    obtain ⟨d, hd⟩ : ∃ d, program (.ofTokens names tokens) = .error e d := by
      rw [parse] at h
      split at h
      · cases h
      · next d hd =>
        cases h
        exact ⟨d, hd⟩
    obtain ⟨t, behind, hrest⟩ := exists_rest_of_program_error hend hd
    obtain ⟨hblamed, before, l, rfl⟩ := full_of_program_error hend hd hmany
    have hcurrent : d.current = t := by rw [Cursor.current, hrest, List.headD_cons]
    refine ⟨before, l, t, behind, by rw [hrest], not_decided_of_full hend hd rfl, ?_⟩
    rw [hblamed, hcurrent]
  · rintro ⟨before, l, t, behind, rfl, hdecided, rfl⟩
    refine ⟨?_, rfl⟩
    rcases program_meets names hend with ⟨more, hmore, hstop⟩ | ⟨d, hfull, hd⟩
    · exact absurd (decided_of_stop hmore hend hstop) hdecided
    · rw [parse, hfull, Cursor.current, hd]
      rfl

/-- The tokens of `fun f(p,p,…,p,`, with as many parameters as a function may have. -/
def fullTokens : List Token :=
  [⟨.funWord, "fun", none, 1, ⟨0, 3⟩⟩, ⟨.identifier, "f", none, 1, ⟨4, 5⟩⟩,
    ⟨.leftParen, "(", none, 1, ⟨5, 6⟩⟩] ++
  (List.range maxParameters).flatMap fun i =>
    [⟨.identifier, "p", none, 1, ⟨2 * i + 6, 2 * i + 7⟩⟩,
      ⟨.comma, ",", none, 1, ⟨2 * i + 7, 2 * i + 8⟩⟩]

@[inherit_doc fullTokens]
def fullClosing : Token := ⟨.rightParen, ")", none, 1, ⟨206, 207⟩⟩

/-- The parenthesis behind them is blamed, although no further parameter is named. -/
theorem too_many_parameters_iff_fullTokens :
    (parse .fresh (fullTokens ++ [fullClosing, .endOfInput 1 207])).1 =
        .error (.ofToken .tooManyParameters fullClosing) ∧
      ∃ (before : List Token) (l : FullList) (t : Token) (behind : List Token),
        fullTokens ++ [fullClosing, .endOfInput 1 207] = before ++ l.tokens ++ t :: behind ∧
          ¬ Decided (before ++ l.tokens) ∧
          ParseError.ofToken .tooManyParameters fullClosing = .ofToken .tooManyParameters t := by
  have herror : (match (parse .fresh (fullTokens ++ [fullClosing, .endOfInput 1 207])).1 with
      | .ok _ => none
      | .error e => some e) = some (.ofToken .tooManyParameters fullClosing) := by
    decide +kernel
  have hparse : (parse .fresh (fullTokens ++ [fullClosing, .endOfInput 1 207])).1 =
      .error (.ofToken .tooManyParameters fullClosing) := by
    split at herror
    · cases herror
    · next h => rw [h, Option.some.inj herror]
  have hend : ∃ t ∈ fullTokens ++ [fullClosing, .endOfInput 1 207], t.isEnd :=
    ⟨.endOfInput 1 207, by simp, rfl⟩
  exact ⟨hparse, (too_many_parameters_iff .fresh _ hend).1 ⟨hparse, rfl⟩⟩

end Lox
