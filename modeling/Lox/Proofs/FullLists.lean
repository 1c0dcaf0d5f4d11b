import Lox.Proofs.Foresight
import Lox.Proofs.Taking

/-!
# Full parameter lists

When as many parameters as a function may have are named and a comma follows each of them, whatever
is behind the last comma is blamed, a further name or not. No reading gets past such a list.

* `FullList`: the tokens of a function up to that comma;
* `Plain`: a reading that consumes no `fun`;
* `Fails`, `Outcome`: how a reading may end that starts before a full list; `Barred`: it ends so
  before all of them;
* `Counted`: a reading is barred, and it finds too many parameters only in a full list, with a rule
  for sequences;
* `CountedFunction`: the same for what follows `fun`, or `fun` and a name, when the full list is
  that of this function;
* `parameterList_counted`: the parameters of a function.
-/

namespace Lox

/-! ### Full lists -/

/-- The tokens of parameters, each with the comma behind it. -/
def parameterTokens (params : List (Token × Token)) : List Token :=
  params.flatMap fun p => [p.1, p.2]

/-- As many parameters as a function may have, each with a comma behind it, and the parenthesis
before them. -/
structure FullParameters where
  paren : Token
  params : List (Token × Token)
  paren_kind : paren.kind = .leftParen
  params_kind : ∀ p ∈ params, p.1.kind = .identifier ∧ p.2.kind = .comma
  length_params : params.length = maxParameters

/-- The tokens from the parenthesis to the last comma. -/
def FullParameters.tokens (p : FullParameters) : List Token :=
  p.paren :: parameterTokens p.params

/-- A function, with or without a name, up to as many parameters as it may have. -/
structure FullList extends FullParameters where
  word : Token
  name : Option Token
  word_kind : word.kind = .funWord
  name_kind : ∀ t ∈ name, t.kind = .identifier

/-- The tokens from `fun` to the last comma. -/
def FullList.tokens (l : FullList) : List Token :=
  l.word :: (l.name.toList ++ l.toFullParameters.tokens)

namespace Parser

variable {α β : Type} {c d : Cursor} {l : FullList} {before behind : List Token}

/-! ### Readings that consume no function -/

/-- A reading from `c` consumes tokens none of which is a `fun`. -/
def Plain (c : Cursor) (r : EStateM.Result ParseError Cursor α) : Prop :=
  ∃ used, c.rest = used ++ (stop r).rest ∧ ∀ t ∈ used, t.kind ≠ .funWord

theorem rest_bind_of_ok {x : Parser α} {f : α → Parser β} {a : α} {used used' : List Token}
    (h : x c = .ok a d) (hc : c.rest = used ++ d.rest)
    (hd : d.rest = used' ++ (stop (f a d)).rest) :
    c.rest = used ++ used' ++ (stop ((x >>= f) c)).rest := by
  rw [bind_of_ok h, hc, List.append_assoc, ← hd]

theorem plain_of_rest_eq {r : EStateM.Result ParseError Cursor α} (h : (stop r).rest = c.rest) :
    Plain c r :=
  ⟨[], h.symm, nofun⟩

theorem Plain.bind {x : Parser α} {f : α → Parser β} (hx : Plain c (x c))
    (hf : ∀ a d, x c = .ok a d → Plain d (f a d)) : Plain c ((x >>= f) c) := by
  cases h : x c with
  | error e d =>
    rw [h] at hx
    rw [bind_of_error h]
    exact hx
  | ok a d =>
    obtain ⟨used, hused, hplain⟩ := h ▸ hx
    obtain ⟨used', hused', hplain'⟩ := hf a d h
    exact ⟨used ++ used', rest_bind_of_ok h hused hused',
      fun t ht => (List.mem_append.1 ht).elim (hplain t) (hplain' t)⟩

theorem plain_advance (h : c.current.kind ≠ .funWord) : Plain c (advance c) := by
  by_cases hend : c.current.kind = .endOfInput
  · rw [advance_at_end hend]
    exact plain_of_rest_eq rfl
  · obtain ⟨rest, hrest, hadvance⟩ := advance_eq hend
    rw [hadvance]
    exact ⟨[c.current], hrest, by simpa using h⟩

theorem plain_expect {kind : Kind} (hkind : kind ≠ .funWord) (what : Expected) :
    Plain c (expect kind what c) := by
  rw [expect, peek_bind]
  split
  · next h => exact plain_advance (by rwa [eq_of_beq h])
  · exact plain_of_rest_eq rfl

theorem plain_accept {kind : Kind} (hkind : kind ≠ .funWord) : Plain c (accept kind c) := by
  rw [accept, peekKind_bind]
  split
  · next h =>
    exact (plain_advance (by rwa [eq_of_beq h])).bind fun _ _ _ => plain_of_rest_eq rfl
  · exact plain_of_rest_eq rfl

theorem plain_identifier (what : Expected) : Plain c (identifier what c) :=
  (plain_expect (by decide) what).bind fun _ _ _ => plain_of_rest_eq rfl

theorem plain_parameter (found : List String) : Plain c (parameter found c) := by
  rw [parameter]
  split
  · exact plain_of_rest_eq rfl
  · exact plain_identifier _

theorem plain_iterate {step : α → Parser (Option α)} (hstep : ∀ a c, Plain c (step a c)) (n : Nat)
    (a : α) : Plain c (iterate step n a c) := by
  induction n generalizing a c with
  | zero => exact plain_of_rest_eq rfl
  | succ n ih =>
    refine (hstep a c).bind fun b d _ => ?_
    cases b with
    | none => exact plain_of_rest_eq rfl
    | some b => exact ih b

/-- What stands between the parentheses, if a token of a kind is ahead there. -/
def parameters (g : Entry) (kind : Kind) : Parser (List String) :=
  if kind == .rightParen then pure [] else commaList g parameter

/-- The parameters of a function with the marks around them, up to the opening brace. -/
def parameterList (g : Entry) : Parser (List String) := do
  let _ ← expect .leftParen .parenBeforeParameters
  let params ← parameters g (← peekKind)
  let _ ← expect .rightParen .parenAfterParameters
  let _ ← expect .leftBrace .braceBeforeFunctionBody
  return params

theorem functionRest_eq (g : Entry) : functionRest g = (do
    let params ← parameterList g
    let body ← blockBody g
    return (params, body)) := by
  simp only [functionRest, ite_bind]
  simp only [parameterList, parameters, bind_assoc, pure_bind]

theorem plain_commaList (g : Entry) : Plain c (commaList g parameter c) := by
  refine (plain_parameter []).bind fun _ _ _ => Plain.bind (plain_iterate (fun found c => ?_) _ _)
    fun _ _ _ => plain_of_rest_eq rfl
  refine (plain_accept (by decide)).bind fun accepted _ _ => ?_
  cases accepted with
  | false => exact plain_of_rest_eq rfl
  | true => exact (plain_parameter found).bind fun _ _ _ => plain_of_rest_eq rfl

theorem plain_parameters (g : Entry) (kind : Kind) : Plain c (parameters g kind c) := by
  rw [parameters]
  split
  · exact plain_of_rest_eq rfl
  · exact plain_commaList g

theorem plain_parameterList (g : Entry) : Plain c (parameterList g c) := by
  refine (plain_expect (by decide) _).bind fun _ _ _ => ?_
  refine Plain.bind (plain_of_rest_eq rfl) fun kind _ _ => ?_
  refine (plain_parameters g kind).bind fun params _ _ => ?_
  refine Plain.bind (plain_expect (by decide) _) fun _ _ _ => ?_
  exact (plain_expect (by decide) _).bind fun _ _ _ => plain_of_rest_eq rfl

/-! ### Readings before full lists -/

/-- A reading fails at a token before those of `behind`, or it has found too many parameters and
blames what is ahead then. -/
inductive Fails (behind : List Token) : EStateM.Result ParseError Cursor α → Prop
  | early {e : ParseError} {d : Cursor} {t : Token} {more : List Token}
      (hd : d.rest = t :: more ++ behind) : Fails behind (.error e d)
  | full {d : Cursor} (hd : d.rest = behind) :
      Fails behind (.error (.ofToken .tooManyParameters d.current) d)

/-- What a reading comes to that starts before a full list: it ends before the list, or it fails. -/
inductive Outcome (l : FullList) (behind : List Token) :
    EStateM.Result ParseError Cursor α → Prop
  | before {a : α} {d : Cursor} {more : List Token} (hd : d.rest = more ++ (l.tokens ++ behind)) :
      Outcome l behind (.ok a d)
  | fails {r : EStateM.Result ParseError Cursor α} (h : Fails behind r) : Outcome l behind r

/-- A reading from `c` does not get past a full list. -/
structure Barred (c : Cursor) (r : EStateM.Result ParseError Cursor α) : Prop where
  rest_eq : ∃ used, c.rest = used ++ (stop r).rest
  meets : ∀ l before behind, c.rest = before ++ (l.tokens ++ behind) → Outcome l behind r

/-- A reading from `c` does not get past a full list, and it finds too many parameters only in
one. -/
structure Counted (c : Cursor) (r : EStateM.Result ParseError Cursor α) : Prop
    extends Barred c r where
  finds : ∀ e d, r = .error e d → e.fault = .tooManyParameters →
    e = .ofToken .tooManyParameters d.current ∧
      ∃ before, ∃ l : FullList, c.rest = before ++ (l.tokens ++ d.rest)

/-- What follows `fun`, or `fun` and a name, does not get past a full list either, nor past the
parameters that it starts with, and it finds too many parameters only in one of these. -/
structure CountedFunction (c : Cursor) (r : EStateM.Result ParseError Cursor α) : Prop
    extends Barred c r where
  opens : c.current.kind ≠ .leftParen → ∃ e, r = .error e c
  meets_own : ∀ (p : FullParameters) (behind : List Token), c.rest = p.tokens ++ behind →
    Fails behind r
  finds : ∀ e d, r = .error e d → e.fault = .tooManyParameters →
    e = .ofToken .tooManyParameters d.current ∧
      ((∃ before, ∃ l : FullList, c.rest = before ++ (l.tokens ++ d.rest)) ∨
        ∃ p : FullParameters, c.rest = p.tokens ++ d.rest)

theorem Fails.of_error {e : ParseError} (h : Fails (α := α) behind (.error e d)) :
    Fails (α := β) behind (.error e d) := by
  cases h with
  | early hd => exact .early hd
  | full hd => exact .full hd

/-- A reading that goes on after one before a full list. -/
theorem Outcome.bind {x : Parser α} {f : α → Parser β} (hx : Outcome l behind (x c))
    (hf : ∀ a d more, x c = .ok a d → d.rest = more ++ (l.tokens ++ behind) →
      Outcome l behind (f a d)) : Outcome l behind ((x >>= f) c) := by
  cases h : x c with
  | error e d =>
    rw [h] at hx
    rw [bind_of_error h]
    cases hx with
    | fails hfails => exact .fails hfails.of_error
  | ok a d =>
    rw [h] at hx
    rw [bind_of_ok h]
    cases hx with
    | before hd => exact hf a d _ h hd
    | fails hfails => cases hfails

/-- A reading that consumes no `fun` does not get into a full list. -/
theorem Plain.outcome {r : EStateM.Result ParseError Cursor α} (h : Plain c r)
    (hc : c.rest = before ++ (l.tokens ++ behind)) : Outcome l behind r := by
  obtain ⟨used, hused, hplain⟩ := h
  obtain ⟨more, hmore⟩ : ∃ more, (stop r).rest = more ++ (l.tokens ++ behind) := by
    rcases List.append_eq_append_iff.1 (hused.symm.trans hc) with ⟨more, -, h⟩ | ⟨more, rfl, h⟩
    · exact ⟨more, h⟩
    · cases more with
      | nil => exact ⟨[], h.symm⟩
      | cons t more =>
        obtain ⟨rfl, -⟩ := List.cons.inj h
        exact absurd l.word_kind (hplain l.word (by simp))
  cases r with
  | ok a d => exact .before hmore
  | error e d =>
    cases more with
    | nil => exact .fails (.early hmore)
    | cons t more =>
      have hlist : d.rest = t :: (more ++ l.tokens) ++ behind := by
        rw [List.cons_append, List.append_assoc]
        exact hmore
      exact .fails (.early hlist)

theorem Plain.barred {r : EStateM.Result ParseError Cursor α} (h : Plain c r) : Barred c r where
  rest_eq := h.imp fun _ h => h.1
  meets _ _ _ hc := h.outcome hc

theorem Plain.counted {r : EStateM.Result ParseError Cursor α} (h : Plain c r)
    (hfault : ∀ e d, r = .error e d → e.fault ≠ .tooManyParameters) : Counted c r where
  toBarred := h.barred
  finds e d he hmany := absurd hmany (hfault e d he)

/-! ### Rules -/

theorem Barred.bind {x : Parser α} {f : α → Parser β} (hx : Barred c (x c))
    (hf : ∀ a d, x c = .ok a d → Barred d (f a d)) : Barred c ((x >>= f) c) where
  rest_eq := by
    obtain ⟨used, hused⟩ := hx.rest_eq
    cases h : x c with
    | error e d =>
      rw [h] at hused
      rw [bind_of_error h]
      exact ⟨used, hused⟩
    | ok a d =>
      obtain ⟨used', hused'⟩ := (hf a d h).rest_eq
      rw [h] at hused
      exact ⟨used ++ used', rest_bind_of_ok h hused hused'⟩
  meets l before behind hc :=
    (hx.meets l before behind hc).bind fun a d more h hd => (hf a d h).meets l more behind hd

/-- What a later reading finds, in terms of where an earlier one started. -/
theorem Counted.finds_behind {r : EStateM.Result ParseError Cursor β} {d' : Cursor} {e : ParseError}
    {a : α} (h : Counted d r) (hc : Barred c (.ok a d : EStateM.Result ParseError Cursor α))
    (he : r = .error e d') (hmany : e.fault = .tooManyParameters) :
    e = .ofToken .tooManyParameters d'.current ∧
      ∃ before, ∃ l : FullList, c.rest = before ++ (l.tokens ++ d'.rest) := by
  obtain ⟨used, hused⟩ := hc.rest_eq
  obtain ⟨hblamed, before, l, hrest⟩ := h.finds e d' he hmany
  refine ⟨hblamed, used ++ before, l, ?_⟩
  rw [hused, List.append_assoc, ← hrest]
  rfl

theorem Counted.bind {x : Parser α} {f : α → Parser β} (hx : Counted c (x c))
    (hf : ∀ a d, x c = .ok a d → Counted d (f a d)) : Counted c ((x >>= f) c) where
  toBarred := hx.toBarred.bind fun a d h => (hf a d h).toBarred
  finds e d' he hmany := by
    cases h : x c with
    | error e₀ d =>
      rw [bind_of_error h] at he
      cases he
      exact hx.finds e d' h hmany
    | ok a d =>
      rw [bind_of_ok h] at he
      exact (hf a d h).finds_behind (h ▸ hx.toBarred) he hmany

theorem counted_of_rest_eq {a : α} (h : d.rest = c.rest) :
    Counted c (.ok a d : EStateM.Result ParseError Cursor α) :=
  Plain.counted (plain_of_rest_eq h) nofun

theorem counted_failAt {fault : ParseFault} (hfault : fault ≠ .tooManyParameters) (t : Token) :
    Counted c ((failAt fault t : Parser α) c) := by
  refine Plain.counted (plain_of_rest_eq rfl) ?_
  rintro _ _ ⟨⟩
  exact hfault

theorem advance_ne_error {e : ParseError} : advance c ≠ .error e d := by
  intro h
  unfold advance at h
  split at h
  · cases h
  · split at h <;> cases h

theorem counted_advance (h : c.current.kind ≠ .funWord) : Counted c (advance c) :=
  (plain_advance h).counted fun _ _ he => absurd he advance_ne_error

theorem counted_accept {kind : Kind} (hkind : kind ≠ .funWord) : Counted c (accept kind c) := by
  rw [accept, peekKind_bind]
  split
  · next h =>
    exact (counted_advance (by rwa [eq_of_beq h])).bind fun _ _ _ => counted_of_rest_eq rfl
  · exact counted_of_rest_eq rfl

theorem counted_expect {kind : Kind} (hkind : kind ≠ .funWord) (what : Expected) :
    Counted c (expect kind what c) := by
  rw [expect, peek_bind]
  split
  · next h => exact counted_advance (by rwa [eq_of_beq h])
  · exact counted_failAt (by simp) _

theorem counted_identifier (what : Expected) : Counted c (identifier what c) :=
  (counted_expect (by decide) what).bind fun _ _ _ => counted_of_rest_eq rfl

theorem counted_iterate {step : α → Parser (Option α)} (hstep : ∀ a c, Counted c (step a c))
    (n : Nat) (a : α) : Counted c (iterate step n a c) := by
  induction n generalizing a c with
  | zero => exact counted_of_rest_eq rfl
  | succ n ih =>
    refine (hstep a c).bind fun b d _ => ?_
    cases b with
    | none => exact counted_of_rest_eq rfl
    | some b => exact ih b

/-! ### Names and marks -/

theorem advance_of_rest {t : Token} {rest : List Token} (hc : c.rest = t :: rest)
    (ht : t.kind ≠ .endOfInput) :
    c.current = t ∧ ∃ d, advance c = .ok t d ∧ d.rest = rest := by
  have hcurrent : c.current = t := by rw [Cursor.current, hc, List.headD_cons]
  obtain ⟨rest', hrest, hadvance⟩ := advance_eq (c := c) (by rwa [hcurrent])
  obtain ⟨-, rfl⟩ := List.cons.inj (hrest.symm.trans hc)
  rw [hcurrent] at hadvance
  exact ⟨hcurrent, _, hadvance, rfl⟩

theorem expect_of_rest {kind : Kind} {t : Token} {rest : List Token} (hc : c.rest = t :: rest)
    (ht : t.kind = kind) (hkind : kind ≠ .endOfInput) (what : Expected) :
    ∃ d, expect kind what c = .ok t d ∧ d.rest = rest := by
  obtain ⟨hcurrent, d, hadvance, hd⟩ := advance_of_rest hc (by rwa [ht])
  refine ⟨d, ?_, hd⟩
  rw [expect, peek_bind, if_pos (by rw [hcurrent, ht]; exact beq_self_eq_true kind), hadvance]

theorem expect_of_ne {kind : Kind} {what : Expected} (h : c.current.kind ≠ kind) :
    expect kind what c = .error (.ofToken (.expected what) c.current) c := by
  rw [expect, peek_bind, if_neg (by simpa using h)]
  rfl

/-- The token that is expected is consumed, or there is another one. -/
theorem expect_cases {kind : Kind} (hkind : kind ≠ .endOfInput) (what : Expected) :
    (∃ t d, expect kind what c = .ok t d ∧ c.rest = t :: d.rest ∧ t.kind = kind) ∨
      ∃ e, expect kind what c = .error e c ∧ e.fault ≠ .tooManyParameters := by
  by_cases h : c.current.kind = kind
  · obtain ⟨rest, hrest, -⟩ := advance_eq (c := c) (by rwa [h])
    obtain ⟨d, hexpect, rfl⟩ := expect_of_rest hrest h hkind what
    exact .inl ⟨c.current, d, hexpect, hrest, h⟩
  · exact .inr ⟨_, expect_of_ne h, by simp [ParseError.ofToken]⟩

theorem identifier_of_rest {t : Token} {rest : List Token} (hc : c.rest = t :: rest)
    (ht : t.kind = .identifier) (what : Expected) :
    ∃ d, identifier what c = .ok t.lexeme d ∧ d.rest = rest := by
  obtain ⟨d, hexpect, hd⟩ := expect_of_rest hc ht (by decide) what
  exact ⟨{ d with names := d.names.insert t.lexeme }, bind_of_ok hexpect, hd⟩

/-- A name is consumed, or there is none. -/
theorem identifier_cases (what : Expected) :
    (∃ t d, identifier what c = .ok t.lexeme d ∧ c.rest = t :: d.rest ∧ t.kind = .identifier) ∨
      ∃ e, identifier what c = .error e c ∧ e.fault ≠ .tooManyParameters := by
  rcases expect_cases (c := c) (by decide : Kind.identifier ≠ .endOfInput) what with
    ⟨t, d, hexpect, hc, ht⟩ | ⟨e, hexpect, he⟩
  · obtain ⟨d', hname, hd'⟩ := identifier_of_rest hc ht what
    exact .inl ⟨t, d', hname, by rw [hd', hc], ht⟩
  · exact .inr ⟨e, bind_of_error hexpect, he⟩

/-! ### Parameters -/

theorem parameter_of_lt {found : List String} (h : found.length < maxParameters) :
    parameter found = identifier .parameterName := by
  rw [parameter, if_neg (Nat.not_le.2 h)]

theorem parameter_of_le {found : List String} (h : maxParameters ≤ found.length) :
    parameter found c = .error (.ofToken .tooManyParameters c.current) c := by
  rw [parameter, if_pos h]
  rfl

/-- A parameter behind a comma. -/
def parameterTurn (found : List String) : Parser (Option (List String)) := do
  return some ((← parameter found) :: found)

/-- One turn of the loop over parameters. -/
def parameterStep (found : List String) : Parser (Option (List String)) := do
  if ← accept .comma then parameterTurn found else return none

theorem parameterStep_of_comma {comma : Token} {rest : List Token} (hc : c.rest = comma :: rest)
    (hcomma : comma.kind = .comma) (found : List String) :
    ∃ d, d.rest = rest ∧ parameterStep found c = parameterTurn found d := by
  obtain ⟨hcurrent, d, hadvance, hd⟩ := advance_of_rest hc (by simp [hcomma])
  have haccept : accept .comma c = .ok true d := by
    rw [accept, peekKind_bind, hcurrent, hcomma]
    exact bind_of_ok hadvance
  exact ⟨d, hd, bind_of_ok haccept⟩

theorem parameterStep_of_ne (h : c.current.kind ≠ .comma) (found : List String) :
    parameterStep found c = .ok none c := by
  have haccept : accept .comma c = .ok false c := by
    rw [accept, peekKind_bind, if_neg (by simpa using h)]
    rfl
  exact bind_of_ok haccept

section Loop

variable {found : List String} {n : Nat}

/-- A loop over parameters with a comma behind each of them, and one before them: it stops at a
comma, or it takes all of them and blames what is behind. -/
theorem iterate_full {comma : Token} {params : List (Token × Token)} (hcomma : comma.kind = .comma)
    (hparams : ∀ p ∈ params, p.1.kind = .identifier ∧ p.2.kind = .comma)
    (hlength : found.length + params.length = maxParameters)
    (hc : c.rest = comma :: (parameterTokens params ++ behind)) :
    (∃ d, iterate parameterStep n found c =
        .error (.ofToken .tooManyParameters d.current) d ∧ d.rest = behind) ∨
      ∃ found' d t more, iterate parameterStep n found c = .ok found' d ∧
        d.rest = t :: more ++ behind ∧ t.kind = .comma := by
  induction params generalizing c found comma n with
  | nil =>
    cases n with
    | zero => exact .inr ⟨found, c, comma, [], rfl, hc, hcomma⟩
    | succ n =>
      obtain ⟨d, hd, hstep⟩ := parameterStep_of_comma hc hcomma found
      have hmany : parameterTurn found d = .error (.ofToken .tooManyParameters d.current) d :=
        bind_of_error (parameter_of_le (by rw [List.length_nil] at hlength; omega))
      exact .inl ⟨d, bind_of_error (hstep.trans hmany), hd⟩
  | cons p params ih =>
    cases n with
    | zero => exact .inr ⟨found, c, comma, parameterTokens (p :: params), rfl, hc, hcomma⟩
    | succ n =>
      obtain ⟨hname, hcomma'⟩ := hparams p (by simp)
      rw [List.length_cons] at hlength
      obtain ⟨d, hd, hstep⟩ := parameterStep_of_comma hc hcomma found
      obtain ⟨d', hidentifier, hd'⟩ := identifier_of_rest hd hname .parameterName
      have hturn : parameterTurn found d = .ok (some (p.1.lexeme :: found)) d' := by
        rw [parameterTurn, parameter_of_lt (by omega)]
        exact bind_of_ok hidentifier
      rw [iterate_turn (hstep.trans hturn)]
      refine ih hcomma' (fun q hq => hparams q (by simp [hq])) ?_ hd'
      rw [List.length_cons]
      omega

/-- A loop over parameters finds too many of them behind as many as there may be, each with a comma
behind it. -/
theorem iterate_finds {e : ParseError} (hlength : found.length ≤ maxParameters)
    (h : iterate parameterStep n found c = .error e d) (hmany : e.fault = .tooManyParameters) :
    e = .ofToken .tooManyParameters d.current ∧ ∃ comma params,
      c.rest = comma :: (parameterTokens params ++ d.rest) ∧ comma.kind = .comma ∧
      (∀ p ∈ params, p.1.kind = .identifier ∧ p.2.kind = .comma) ∧
      found.length + params.length = maxParameters := by
  induction n generalizing c found with
  | zero => cases h
  | succ n ih =>
    by_cases hcomma : c.current.kind = .comma
    · obtain ⟨rest, hc, -⟩ := advance_eq (c := c) (by simp [hcomma])
      obtain ⟨d₀, rfl, hstep⟩ := parameterStep_of_comma hc hcomma found
      rcases Nat.lt_or_eq_of_le hlength with hlt | heq
      · have hparameter := parameter_of_lt hlt
        rcases identifier_cases (c := d₀) .parameterName with
          ⟨t, d₁, hname, hd₀, ht⟩ | ⟨e', herror, he'⟩
        · have hturn : parameterTurn found d₀ = .ok (some (t.lexeme :: found)) d₁ := by
            rw [parameterTurn, hparameter]
            exact bind_of_ok hname
          rw [iterate_turn (hstep.trans hturn)] at h
          have hlength' : (t.lexeme :: found).length ≤ maxParameters := hlt
          obtain ⟨he, comma, params, hd₁, hcomma', hparams, hcount⟩ := ih hlength' h
          refine ⟨he, c.current, (t, comma) :: params, by rw [hc, hd₀, hd₁]; rfl, hcomma, ?_, ?_⟩
          · exact List.forall_mem_cons.2 ⟨⟨ht, hcomma'⟩, hparams⟩
          · rw [List.length_cons] at hcount ⊢
            omega
        · have hturn : parameterTurn found d₀ = .error e' d₀ := by
            rw [parameterTurn, hparameter]
            exact bind_of_error herror
          rw [iterate, bind_of_error (hstep.trans hturn)] at h
          cases h
          exact absurd hmany he'
      · have hturn : parameterTurn found d₀ = .error (.ofToken .tooManyParameters d₀.current) d₀ :=
          bind_of_error (parameter_of_le (Nat.le_of_eq heq.symm))
        rw [iterate, bind_of_error (hstep.trans hturn)] at h
        cases h
        exact ⟨rfl, c.current, [], hc, hcomma, by simp, by rw [heq]; rfl⟩
    · rw [iterate_stop (parameterStep_of_ne hcomma found)] at h
      cases h

end Loop

section Lists

variable {g : Entry}

theorem commaList_full {params : List (Token × Token)}
    (hparams : ∀ p ∈ params, p.1.kind = .identifier ∧ p.2.kind = .comma)
    (hlength : params.length = maxParameters) (hc : c.rest = parameterTokens params ++ behind) :
    (∃ d, commaList g parameter c = .error (.ofToken .tooManyParameters d.current) d ∧
        d.rest = behind) ∨
      ∃ found d t more, commaList g parameter c = .ok found d ∧ d.rest = t :: more ++ behind ∧
        t.kind = .comma := by
  cases params with
  | nil => cases hlength
  | cons p params =>
    obtain ⟨hname, hcomma⟩ := hparams p (by simp)
    obtain ⟨d, hfirst, hd⟩ := identifier_of_rest hc hname .parameterName
    have hcount : [p.1.lexeme].length + params.length = maxParameters := by
      rw [← hlength, List.length_singleton, List.length_cons, Nat.add_comm]
    rcases iterate_full hcomma (fun q hq => hparams q (by simp [hq])) hcount hd with
      ⟨d', hmany, hd'⟩ | ⟨found, d', t, more, hfound, hd', ht⟩
    · exact .inl ⟨d', (bind_of_ok hfirst).trans (bind_of_error hmany), hd'⟩
    · exact .inr ⟨_, d', t, more, (bind_of_ok hfirst).trans (bind_of_ok hfound), hd', ht⟩

theorem commaList_finds {e : ParseError} (h : commaList g parameter c = .error e d)
    (hmany : e.fault = .tooManyParameters) :
    e = .ofToken .tooManyParameters d.current ∧ ∃ params,
      c.rest = parameterTokens params ++ d.rest ∧
      (∀ p ∈ params, p.1.kind = .identifier ∧ p.2.kind = .comma) ∧
      params.length = maxParameters := by
  have hcommaList : commaList g parameter = (do
      let first ← identifier .parameterName
      let items ← iterate parameterStep g.bound [first]
      return items.reverse) := rfl
  rw [hcommaList] at h
  rcases identifier_cases (c := c) .parameterName with ⟨t, d₀, hname, hc, ht⟩ | ⟨e', herror, he'⟩
  · rw [bind_of_ok hname] at h
    cases hloop : iterate parameterStep g.bound [t.lexeme] d₀ with
    | ok found d₁ =>
      rw [bind_of_ok hloop] at h
      cases h
    | error e' d₁ =>
      rw [bind_of_error hloop] at h
      cases h
      have hone : [t.lexeme].length ≤ maxParameters := by
        rw [List.length_singleton]
        decide
      obtain ⟨he, comma, params, hd₀, hcomma, hparams, hlength⟩ := iterate_finds hone hloop hmany
      refine ⟨he, (t, comma) :: params, by rw [hc, hd₀]; rfl, ?_, ?_⟩
      · exact List.forall_mem_cons.2 ⟨⟨ht, hcomma⟩, hparams⟩
      · rw [← hlength, List.length_cons, List.length_singleton, Nat.add_comm]
  · rw [bind_of_error herror] at h
    cases h
    exact absurd hmany he'

theorem kind_of_full {params : List (Token × Token)}
    (hparams : ∀ p ∈ params, p.1.kind = .identifier ∧ p.2.kind = .comma)
    (hlength : params.length = maxParameters) (hc : c.rest = parameterTokens params ++ behind) :
    c.current.kind = .identifier := by
  cases params with
  | nil => cases hlength
  | cons p params =>
    have hcurrent : c.current = p.1 := by
      rw [Cursor.current, hc]
      rfl
    rw [hcurrent, (hparams p (by simp)).1]

theorem parameters_finds {kind : Kind} {e : ParseError} (h : parameters g kind c = .error e d)
    (hmany : e.fault = .tooManyParameters) :
    e = .ofToken .tooManyParameters d.current ∧ ∃ params,
      c.rest = parameterTokens params ++ d.rest ∧
      (∀ p ∈ params, p.1.kind = .identifier ∧ p.2.kind = .comma) ∧
      params.length = maxParameters := by
  rw [parameters] at h
  split at h
  · cases h
  · exact commaList_finds h hmany

theorem parameterList_counted (c : Cursor) : CountedFunction c (parameterList g c) where
  toBarred := (plain_parameterList g).barred
  opens h := ⟨_, bind_of_error (expect_of_ne h)⟩
  meets_own p behind hc := by
    obtain ⟨d, hparen, hd⟩ := expect_of_rest hc p.paren_kind (by decide) .parenBeforeParameters
    have hkind := kind_of_full p.params_kind p.length_params hd
    have hlist : parameterList g c = (do
        let params ← commaList g parameter
        let _ ← expect .rightParen .parenAfterParameters
        let _ ← expect .leftBrace .braceBeforeFunctionBody
        return params : Parser (List String)) d := by
      rw [parameterList, bind_of_ok hparen, peekKind_bind, hkind]
      rfl
    rw [hlist]
    rcases commaList_full p.params_kind p.length_params hd with
      ⟨d', hmany, hd'⟩ | ⟨found, d', t, more, hfound, hd', ht⟩
    · rw [bind_of_error hmany]
      exact .full hd'
    · -- the closing parenthesis is missed at a comma
      have hne : d'.current.kind ≠ .rightParen := by
        simp [Cursor.current, hd', ht]
      rw [bind_of_ok hfound, bind_of_error (expect_of_ne hne)]
      exact .early hd'
  finds e d he hmany := by
    rw [parameterList] at he
    rcases expect_cases (by decide : Kind.leftParen ≠ .endOfInput) .parenBeforeParameters with
      ⟨paren, d₀, hparen, hc, hkind⟩ | ⟨e', herror, he'⟩
    · rw [bind_of_ok hparen, peekKind_bind] at he
      cases hparams : parameters g d₀.current.kind d₀ with
      | error e' d₁ =>
        rw [bind_of_error hparams] at he
        cases he
        obtain ⟨hblamed, params, hd₀, hnames, hlength⟩ := parameters_finds hparams hmany
        exact ⟨hblamed, .inr ⟨⟨paren, params, hkind, hnames, hlength⟩, by rw [hc, hd₀]; rfl⟩⟩
      | ok params d₁ =>
        rw [bind_of_ok hparams] at he
        have hmarks : Counted d₁ ((do
            let _ ← expect .rightParen .parenAfterParameters
            let _ ← expect .leftBrace .braceBeforeFunctionBody
            return params : Parser (List String)) d₁) :=
          (counted_expect (by decide) _).bind fun _ _ _ =>
            (counted_expect (by decide) _).bind fun _ _ _ => counted_of_rest_eq rfl
        obtain ⟨hblamed, before, l, hd₁⟩ := hmarks.finds e d he hmany
        obtain ⟨used, hd₀, -⟩ := plain_parameters g d₀.current.kind (c := d₀)
        rw [hparams] at hd₀
        refine ⟨hblamed, .inl ⟨paren :: (used ++ before), l, ?_⟩⟩
        rw [hc, hd₀, List.cons_append, List.append_assoc, ← hd₁]
        rfl
    · rw [bind_of_error herror] at he
      cases he
      exact absurd hmany he'

end Lists

/-! ### Functions -/

theorem Fails.bind {x : Parser α} (hx : Fails behind (x c)) (f : α → Parser β) :
    Fails behind ((x >>= f) c) := by
  cases h : x c with
  | ok a d =>
    rw [h] at hx
    cases hx
  | error e d =>
    rw [h] at hx
    rw [bind_of_error h]
    exact hx.of_error

theorem CountedFunction.bind {x : Parser α} {f : α → Parser β} (hx : CountedFunction c (x c))
    (hf : ∀ a d, x c = .ok a d → Counted d (f a d)) : CountedFunction c ((x >>= f) c) where
  toBarred := hx.toBarred.bind fun a d h => (hf a d h).toBarred
  opens hkind := by
    obtain ⟨e, he⟩ := hx.opens hkind
    exact ⟨e, bind_of_error he⟩
  meets_own p behind hc := (hx.meets_own p behind hc).bind f
  finds e d' he hmany := by
    cases h : x c with
    | error e₀ d =>
      rw [bind_of_error h] at he
      cases he
      exact hx.finds e d' h hmany
    | ok a d =>
      rw [bind_of_ok h] at he
      exact ((hf a d h).finds_behind (h ▸ hx.toBarred) he hmany).imp_right .inl

/-- A `fun` is consumed, and a name or none, and then what follows them is read: a full list from
there on may be that of this function. -/
theorem CountedFunction.counted {r : EStateM.Result ParseError Cursor α} {word : Token}
    (h : CountedFunction d r) (hword : word.kind = .funWord) (name : Option Token)
    (hname : ∀ t ∈ name, t.kind = .identifier) (hc : c.rest = word :: (name.toList ++ d.rest)) :
    Counted c r where
  rest_eq := by
    obtain ⟨used, hused⟩ := h.rest_eq
    exact ⟨word :: (name.toList ++ used), by rw [hc, hused, List.cons_append, List.append_assoc]⟩
  meets l before behind hl := by
    rw [hc] at hl
    cases before with
    | nil =>
      -- the list is that of this function, if both have a name or neither has
      obtain ⟨-, hl⟩ := List.cons.inj hl
      rw [List.append_eq, List.append_assoc] at hl
      cases name with
      | none =>
        cases hnone : l.name with
        | none =>
          rw [hnone] at hl
          exact .fails (h.meets_own l.toFullParameters behind hl)
        | some t =>
          rw [hnone] at hl
          have hcurrent : d.current = t := by
            rw [Cursor.current]
            exact congrArg (List.headD · _) hl
          obtain ⟨e, rfl⟩ := h.opens (by simp [hcurrent, l.name_kind t hnone])
          exact .fails (.early hl)
      | some t =>
        have ht := hname t rfl
        cases hsome : l.name with
        | none =>
          rw [hsome] at hl
          obtain ⟨rfl, -⟩ := List.cons.inj hl
          rw [l.paren_kind] at ht
          cases ht
        | some t' =>
          rw [hsome] at hl
          obtain ⟨-, hl⟩ := List.cons.inj hl
          exact .fails (h.meets_own l.toFullParameters behind hl)
    | cons t before =>
      obtain ⟨-, hl⟩ := List.cons.inj hl
      cases name with
      | none => exact h.meets l before behind hl
      | some t' =>
        have ht' := hname t' rfl
        cases before with
        | nil =>
          obtain ⟨rfl, -⟩ := List.cons.inj hl
          rw [l.word_kind] at ht'
          cases ht'
        | cons t before =>
          obtain ⟨-, hl⟩ := List.cons.inj hl
          exact h.meets l before behind hl
  finds e d' he hmany := by
    obtain ⟨hblamed, ⟨before, l, hd⟩ | ⟨p, hd⟩⟩ := h.finds e d' he hmany
    · refine ⟨hblamed, word :: (name.toList ++ before), l, ?_⟩
      rw [hc, hd, List.cons_append, List.append_assoc]
    · refine ⟨hblamed, [], ⟨p, word, name, hword, hname⟩, ?_⟩
      rw [hc, hd]
      simp [FullList.tokens]

end Parser

end Lox
