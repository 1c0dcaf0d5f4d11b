import Lox.Proofs.Grammar
import Lox.Token.Lexer

/-!
# The symbols of a text

Which symbols a text is cut into does not depend on where the text stands, and a newline never
stands inside of a token or a comment that is complete before it. So the symbols of two texts with
a newline between them are those of the first and then those of the second.

* `Steady`: what follows the piece at the head of a text may be replaced, `munch_steady`;
* `symbols?`: the symbols of a text, without places, and `lexFrom_symbols`;
* `symbols?_append`.
-/

namespace Lox

/-! ### Pieces before different texts -/

/-- The kind of a piece that is no blank. -/
def Piece.kind? : Piece → Option Kind
  | blank => none
  | token kind _ => some kind

/-- Nothing, or a text that starts with a newline or a semicolon. No token goes on with these. -/
def Closing (rest : List Char) : Prop := ∀ c ∈ rest.head?, c = '\n' ∨ c = ';'

theorem closing_newline (rest : List Char) : Closing ('\n' :: rest) := by
  rintro c ⟨⟩
  exact .inl rfl

theorem Closing.not {p : Char → Bool} {rest : List Char} (h : Closing rest)
    (hp : ['\n', ';'].all (!p ·)) : ∀ c ∈ rest.head?, p c = false := by
  intro c hc
  rcases h c hc with rfl | rfl <;> simp_all

/-- When a piece is found, it is not the end marker, and it lies within the text. If it lies within
`cs` already, it is found also when something else stops `cs`. Only a comment at the end of `cs`
does not stop at a semicolon. -/
structure Steady (f : List Char → Except LexFault Piece × Nat) : Prop where
  kind_ne {cs : List Char} {piece : Piece} {n : Nat} (h : f cs = (.ok piece, n)) :
    piece.kind? ≠ some .endOfInput
  length_le {cs : List Char} {piece : Piece} {n : Nat} (h : f cs = (.ok piece, n)) : n ≤ cs.length
  before {cs rest rest' : List Char} {piece : Piece} {n : Nat}
    (h : f (cs ++ rest) = (.ok piece, n)) (hn : n ≤ cs.length) (hstops : Closing rest')
    (hblank : piece = .blank → n < cs.length ∨ rest'.head? ≠ some ';') :
    f (cs ++ rest') = (.ok piece, n)

theorem Steady.before_newline {f : List Char → Except LexFault Piece × Nat} (hf : Steady f)
    {cs : List Char} {piece : Piece} {n : Nat} (h : f cs = (.ok piece, n)) (ds : List Char) :
    f (cs ++ '\n' :: ds) = (.ok piece, n) := by
  have h' : f (cs ++ []) = (.ok piece, n) := by rwa [List.append_nil]
  exact hf.before h' (hf.length_le h) (closing_newline ds) fun _ => .inr (by simp)

theorem steady_const {piece : Piece} (hpiece : piece.kind? ≠ some .endOfInput) :
    Steady fun _ => (.ok piece, 0) where
  kind_ne := by
    rintro _ _ _ ⟨⟩
    exact hpiece
  length_le := by
    rintro _ _ _ ⟨⟩
    exact Nat.zero_le _
  before h _ _ _ := h

theorem length_takeWhile_le (p : Char → Bool) (cs : List Char) :
    (cs.takeWhile p).length ≤ cs.length :=
  (List.takeWhile_sublist p).length_le

/-- A run that lies within `cs` is the same when something else stops `cs`. -/
theorem takeWhile_before {p : Char → Bool} {cs rest rest' : List Char}
    (hle : ((cs ++ rest).takeWhile p).length ≤ cs.length)
    (hstops : ((cs ++ rest).takeWhile p).length < cs.length ∨ ∀ c ∈ rest'.head?, p c = false) :
    (cs ++ rest').takeWhile p = (cs ++ rest).takeWhile p := by
  by_cases hfull : (cs.takeWhile p).length = cs.length
  · rw [List.takeWhile_append, if_pos hfull, List.length_append] at hle hstops
    have hrest : rest.takeWhile p = [] := List.length_eq_zero_iff.1 (by omega)
    have hrest' : rest'.takeWhile p = [] := by
      rcases hstops with hlt | hstops
      · omega
      · cases rest' with
        | nil => rfl
        | cons c rest' => rw [List.takeWhile_cons, hstops c rfl, if_neg Bool.false_ne_true]
    rw [List.takeWhile_append, List.takeWhile_append, if_pos hfull, if_pos hfull, hrest, hrest']
  · rw [List.takeWhile_append, List.takeWhile_append, if_neg hfull, if_neg hfull]

/-- The first characters are those of `cs`, if it is long enough. -/
theorem exists_of_append_eq_cons {α : Type} {cs rest ds : List α} {d : α}
    (h : cs ++ rest = d :: ds) (hcs : 0 < cs.length) : ∃ cs', cs = d :: cs' ∧ cs' ++ rest = ds := by
  obtain ⟨c, cs, rfl⟩ := List.exists_cons_of_length_pos hcs
  obtain ⟨rfl, htail⟩ := List.cons.inj h
  exact ⟨cs, rfl, htail⟩

theorem munchInteger_eq_ok {c : Char} {digits : List Char} {piece : Piece} {n : Nat}
    (h : munchNumber.munchInteger c digits = (.ok piece, n)) :
    piece.kind? = some .integer ∧ n = digits.length := by
  unfold munchNumber.munchInteger at h
  dsimp only at h
  split at h <;> cases h
  exact ⟨rfl, rfl⟩

/-- A text that goes on with a point and a digit. -/
def StartsFraction (cs : List Char) : Prop := ∃ d more, cs = '.' :: d :: more ∧ d.isDigit

theorem munchNumber_of_fraction {c d : Char} {cs more : List Char}
    (h : cs.drop (cs.takeWhile Char.isDigit).length = '.' :: d :: more) (hd : d.isDigit) :
    munchNumber c cs =
      (.ok (.token .float (some (.float (.ofScientific
          (digitsValue 0 (c :: cs.takeWhile Char.isDigit ++ (d :: more).takeWhile Char.isDigit))
          true ((d :: more).takeWhile Char.isDigit).length)))),
        (cs.takeWhile Char.isDigit).length + 1 + ((d :: more).takeWhile Char.isDigit).length) := by
  rw [munchNumber, h]
  show (if d.isDigit then _ else _) = _
  rw [if_pos hd]

theorem munchNumber_of_not_fraction {c : Char} {cs : List Char}
    (h : ¬ StartsFraction (cs.drop (cs.takeWhile Char.isDigit).length)) :
    munchNumber c cs = munchNumber.munchInteger c (cs.takeWhile Char.isDigit) := by
  rw [munchNumber]
  dsimp only
  split
  · next d more hdrop => rw [if_neg fun hd => h ⟨d, more, hdrop, hd⟩]
  · rfl

theorem munchNumber_steady (c : Char) : Steady (munchNumber c) where
  kind_ne {cs piece n} h := by
    by_cases hfraction : StartsFraction (cs.drop (cs.takeWhile Char.isDigit).length)
    · obtain ⟨d, more, hdrop, hd⟩ := hfraction
      rw [munchNumber_of_fraction hdrop hd] at h
      cases h
      simp [Piece.kind?]
    · rw [munchNumber_of_not_fraction hfraction] at h
      simp [(munchInteger_eq_ok h).1]
  length_le {cs piece n} h := by
    by_cases hfraction : StartsFraction (cs.drop (cs.takeWhile Char.isDigit).length)
    · obtain ⟨d, more, hdrop, hd⟩ := hfraction
      rw [munchNumber_of_fraction hdrop hd] at h
      cases h
      have hlength := congrArg List.length hdrop
      have hle := length_takeWhile_le Char.isDigit (d :: more)
      simp only [List.length_drop, List.length_cons] at hlength hle
      omega
    · rw [munchNumber_of_not_fraction hfraction] at h
      obtain ⟨-, rfl⟩ := munchInteger_eq_ok h
      exact length_takeWhile_le _ _
  before {cs rest rest' piece n} h hn hstops _ := by
    have hdigit := hstops.not (p := Char.isDigit) (by decide)
    have hdrop {rest : List Char} {k : Nat} (hk : k ≤ cs.length) :
        (cs ++ rest).drop k = cs.drop k ++ rest := List.drop_append_of_le_length hk
    by_cases hfraction :
        StartsFraction ((cs ++ rest).drop ((cs ++ rest).takeWhile Char.isDigit).length)
    · obtain ⟨d, more, hpoint, hd⟩ := hfraction
      rw [munchNumber_of_fraction hpoint hd] at h
      obtain ⟨hpiece, rfl⟩ := Prod.mk.inj h
      have hdigits : (cs ++ rest').takeWhile Char.isDigit = (cs ++ rest).takeWhile Char.isDigit :=
        takeWhile_before (by omega) (.inr hdigit)
      have hpos : 0 < ((d :: more).takeWhile Char.isDigit).length := by simp [hd]
      -- the point and the digits behind it lie within `cs`
      rw [hdrop (by omega)] at hpoint
      obtain ⟨cs', hcs', hcons⟩ := exists_of_append_eq_cons hpoint (by simp; omega)
      have hlength := congrArg List.length hcs'
      simp only [List.length_drop, List.length_cons] at hlength
      obtain ⟨more', rfl, rfl⟩ := exists_of_append_eq_cons hcons (by omega)
      rw [List.length_cons] at hlength
      rw [← List.cons_append] at hpos hn h ⊢
      have hmore : (d :: more' ++ rest').takeWhile Char.isDigit =
          (d :: more' ++ rest).takeWhile Char.isDigit :=
        takeWhile_before (by rw [List.length_cons]; omega) (.inr hdigit)
      have hpoint' : (cs ++ rest').drop ((cs ++ rest').takeWhile Char.isDigit).length =
          '.' :: d :: (more' ++ rest') := by
        rw [hdigits, hdrop (by omega), hcs']
        rfl
      rw [munchNumber_of_fraction hpoint' hd, ← h, hdigits, ← List.cons_append, hmore]
    · rw [munchNumber_of_not_fraction hfraction] at h
      obtain ⟨-, rfl⟩ := munchInteger_eq_ok h
      have hdigits := takeWhile_before hn (.inr hdigit)
      rw [munchNumber_of_not_fraction, hdigits, h]
      rw [hdigits, hdrop hn]
      rw [hdrop hn] at hfraction
      rintro ⟨d, more, hpoint, hd⟩
      generalize cs.drop _ = tail at hpoint hfraction
      -- a point at the end of `cs` is followed by what stops `cs` now
      rcases tail with _ | ⟨x, _ | ⟨y, tail⟩⟩
      · rw [List.nil_append] at hpoint
        have := hstops '.' (by rw [hpoint]; rfl)
        simp at this
      · obtain ⟨-, hrest⟩ := List.cons.inj hpoint
        have := hdigit d (by rw [show rest' = d :: more from hrest]; rfl)
        rw [hd] at this
        cases this
      · obtain ⟨rfl, hmore⟩ := List.cons.inj hpoint
        obtain ⟨rfl, -⟩ := List.cons.inj hmore
        exact hfraction ⟨y, tail ++ rest, rfl, hd⟩

theorem munchString_eq_ok {cs : List Char} {piece : Piece} {n : Nat}
    (h : munchString cs = (.ok piece, n)) :
    (cs.takeWhile (· != '"')).length < cs.length ∧
      piece = .token .string (some (.str (.ofList (cs.takeWhile (· != '"'))))) ∧
      n = (cs.takeWhile (· != '"')).length + 1 := by
  rw [munchString] at h
  split at h
  · next hlt =>
    cases h
    exact ⟨hlt, rfl, rfl⟩
  · cases h

theorem munchString_steady : Steady munchString where
  kind_ne h := by
    obtain ⟨-, rfl, -⟩ := munchString_eq_ok h
    simp [Piece.kind?]
  length_le h := by
    obtain ⟨hlt, -, rfl⟩ := munchString_eq_ok h
    exact hlt
  before {cs rest rest' piece n} h hn _ _ := by
    obtain ⟨-, rfl, rfl⟩ := munchString_eq_ok h
    rw [munchString, takeWhile_before (Nat.le_of_lt hn) (.inl hn)]
    rw [if_pos (by rw [List.length_append]; omega)]

theorem Kind.ofWord_ne_endOfInput (s : String) : ofWord s ≠ .endOfInput := by
  unfold ofWord
  cases h : keywords.find? (·.name == s) with
  | none => decide
  | some kind =>
    have hmem := List.mem_of_find?_eq_some h
    intro heq
    rw [Option.getD_some] at heq
    subst heq
    revert hmem
    decide

theorem munchWord_steady (c : Char) : Steady (munchWord c) where
  kind_ne h := by
    cases h
    simpa [Piece.kind?] using Kind.ofWord_ne_endOfInput _
  length_le h := by
    cases h
    exact length_takeWhile_le _ _
  before h hn hstops _ := by
    cases h
    rw [munchWord, takeWhile_before hn (.inr (hstops.not (by decide)))]

theorem commentLength?_bounds {n k : Nat} {cs : List Char} (h : commentLength? n cs = some k) :
    n + 2 ≤ k ∧ k ≤ n + cs.length := by
  fun_induction commentLength? n cs with
  | case1 n cs =>
    cases h
    simp only [List.length_cons]
    omega
  | case2 n c cs _ ih =>
    have := ih h
    rw [List.length_cons]
    omega
  | case3 => cases h

theorem commentLength?_before {n k : Nat} {cs rest : List Char}
    (h : commentLength? n (cs ++ rest) = some k) (hk : k ≤ n + cs.length) (rest' : List Char) :
    commentLength? n (cs ++ rest') = some k := by
  induction cs generalizing n with
  | nil =>
    have := (commentLength?_bounds h).1
    rw [List.length_nil] at hk
    omega
  | cons c cs ih =>
    rw [List.length_cons] at hk
    rw [List.cons_append] at h ⊢
    -- the end of the comment is in `cs`, so that the character behind `c` is
    have hpos : 0 < cs.length := by
      have := (commentLength?_bounds h).1
      omega
    obtain ⟨d, cs, rfl⟩ := List.exists_cons_of_length_pos hpos
    by_cases hend : c = '*' ∧ d = '/'
    · obtain ⟨rfl, rfl⟩ := hend
      exact h
    · have hstep (more : List Char) :
          commentLength? n (c :: (d :: cs ++ more)) = commentLength? (n + 1) (d :: cs ++ more) := by
        rw [commentLength?]
        rintro more rfl hmore
        exact hend ⟨rfl, (List.cons.inj hmore).1⟩
      rw [hstep] at h ⊢
      exact ih h (by omega)

/-- After a slash: a comment up to the end of the line, a comment between marks, or none. -/
theorem munchSlash_eq_ok {cs : List Char} {piece : Piece} {n : Nat}
    (h : munchSlash cs = (.ok piece, n)) :
    (∃ more, cs = '/' :: more ∧ piece = .blank ∧ n = runLength (· != '\n') cs) ∨
      (∃ more, cs = '*' :: more ∧ piece = .blank ∧ commentLength? 1 more = some n) ∨
      ((∀ c ∈ cs.head?, c ≠ '/' ∧ c ≠ '*') ∧ piece = .token .slash none ∧ n = 0) := by
  unfold munchSlash at h
  split at h
  · next more =>
    cases h
    exact .inl ⟨more, rfl, rfl, rfl⟩
  · next more =>
    split at h
    · next k hk =>
      cases h
      exact .inr (.inl ⟨more, rfl, rfl, hk⟩)
    · cases h
  · next hline hblock =>
    cases h
    refine .inr (.inr ⟨?_, rfl, rfl⟩)
    cases cs with
    | nil => simp
    | cons d cs =>
      rintro c ⟨⟩
      exact ⟨fun hd => hline cs (hd ▸ rfl), fun hd => hblock cs (hd ▸ rfl)⟩

theorem munchSlash_of_ne {cs : List Char} (h : ∀ c ∈ cs.head?, c ≠ '/' ∧ c ≠ '*') :
    munchSlash cs = (.ok (.token .slash none), 0) := by
  unfold munchSlash
  split
  · exact absurd rfl (h '/' rfl).1
  · exact absurd rfl (h '*' rfl).2
  · rfl

theorem munchSlash_steady : Steady munchSlash where
  kind_ne h := by
    rcases munchSlash_eq_ok h with ⟨_, -, rfl, -⟩ | ⟨_, -, rfl, -⟩ | ⟨-, rfl, -⟩ <;>
      simp [Piece.kind?]
  length_le h := by
    rcases munchSlash_eq_ok h with ⟨_, -, -, rfl⟩ | ⟨_, rfl, -, hn⟩ | ⟨-, -, rfl⟩
    · exact length_takeWhile_le _ _
    · have := (commentLength?_bounds hn).2
      rw [List.length_cons]
      omega
    · exact Nat.zero_le _
  before {cs rest rest' piece n} h hn hstops hblank := by
    rcases munchSlash_eq_ok h with ⟨more, hcs, rfl, rfl⟩ | ⟨more, hcs, rfl, hk⟩ | ⟨hne, rfl, rfl⟩
    · have hends : runLength (· != '\n') (cs ++ rest) < cs.length ∨
          ∀ c ∈ rest'.head?, (c != '\n') = false := by
        refine (hblank rfl).imp_right fun hsemicolon c hc => ?_
        rcases hstops c hc with rfl | rfl
        · rfl
        · exact absurd hc hsemicolon
      have hrun := takeWhile_before hn hends
      have hpos : 0 < cs.length := by
        rw [runLength, hcs] at hn
        simp at hn
        omega
      obtain ⟨cs, rfl, -⟩ := exists_of_append_eq_cons hcs hpos
      rw [runLength, ← hrun]
      rfl
    · have hpos : 0 < cs.length := by
        have := (commentLength?_bounds hk).1
        omega
      obtain ⟨cs, rfl, rfl⟩ := exists_of_append_eq_cons hcs hpos
      have hk' := commentLength?_before hk (by rw [List.length_cons] at hn; omega) rest'
      rw [List.cons_append, munchSlash, hk']
    · refine munchSlash_of_ne ?_
      cases cs with
      | nil =>
        intro c hc
        rcases hstops c hc with rfl | rfl <;> decide
      | cons d cs => exact hne

theorem munchLonger_eq {cs : List Char} {short : Kind} {long : List (Char × Kind)} :
    munchLonger cs short long =
      match cs.head?.bind (List.lookup · long) with
      | some kind => (.ok (.token kind none), 1)
      | none => (.ok (.token short none), 0) := by
  cases cs with
  | nil => rfl
  | cons d cs =>
    cases hd : long.lookup d with
    | none => simp [munchLonger, hd]
    | some kind => simp [munchLonger, hd]

theorem munchLonger_steady {short : Kind} {long : List (Char × Kind)}
    (hshort : short ≠ .endOfInput) (hnewline : long.lookup '\n' = none)
    (hsemicolon : long.lookup ';' = none)
    (hkinds : ∀ d kind, long.lookup d = some kind → kind ≠ .endOfInput) :
    Steady fun cs => munchLonger cs short long where
  kind_ne {cs piece n} h := by
    rw [munchLonger_eq] at h
    split at h
    · next kind hkind =>
      cases h
      obtain ⟨d, -, hd⟩ := Option.bind_eq_some_iff.1 hkind
      simpa [Piece.kind?] using hkinds d kind hd
    · cases h
      simpa [Piece.kind?] using hshort
  length_le {cs piece n} h := by
    rw [munchLonger_eq] at h
    split at h
    · next kind hkind =>
      cases h
      cases cs with
      | nil => cases hkind
      | cons d cs => simp
    · cases h
      exact Nat.zero_le _
  before {cs rest rest' piece n} h hn hstops _ := by
    cases cs with
    | cons d cs => exact h
    | nil =>
      -- the short sign: what stops the text does not make it longer
      have hrest : rest'.head?.bind (List.lookup · long) = none := by
        rw [Option.bind_eq_none_iff]
        intro c hc
        rcases hstops c hc with rfl | rfl
        · exact hnewline
        · exact hsemicolon
      rw [List.nil_append, munchLonger_eq] at h ⊢
      rw [hrest]
      split at h
      · cases h
        simp at hn
      · exact h

theorem munchPlain_steady (c : Char) : Steady (munchPlain c) := by
  have heq : munchPlain c = if c.isDigit then munchNumber c else
      if isWordStart c then munchWord c else fun _ => (.error (.unexpectedCharacter c), 0) := by
    funext cs
    rw [munchPlain]
    split
    · rfl
    · split <;> rfl
  rw [heq]
  split
  · exact munchNumber_steady c
  · split
    · exact munchWord_steady c
    · exact ⟨nofun, nofun, nofun⟩

theorem lookup_ne_endOfInput {long : List (Char × Kind)}
    (h : ∀ entry ∈ long, entry.2 ≠ .endOfInput) (d : Char) (kind : Kind)
    (hd : long.lookup d = some kind) : kind ≠ .endOfInput := by
  induction long with
  | nil => cases hd
  | cons entry long ih =>
    rw [List.lookup_cons] at hd
    split at hd
    · cases hd
      exact h entry (by simp)
    · exact ih (fun e he => h e (by simp [he])) hd

/-- The piece at the head of a text is the same before different texts. -/
theorem munch_steady (c : Char) : Steady (munch c) := by
  unfold munch
  split
  all_goals first
    | exact steady_const (by decide)
    | exact munchSlash_steady
    | exact munchLonger_steady (by decide) rfl rfl (lookup_ne_endOfInput (by decide))
    | exact munchString_steady
    | exact munchPlain_steady c

/-! ### Symbols -/

/-- The symbol of a piece of text that is a token. -/
def pieceSymbol (kind : Kind) (text : List Char) (payload : Option Payload) : Symbol :=
  Token.symbol ⟨kind, .ofList text, payload, 1, .point 0⟩

/-- The symbols of a text, unless it has a fault. -/
def symbols? : List Char → Option (List Symbol)
  | [] => some []
  | c :: cs =>
    match munch c cs with
    | (.error _, _) => none
    | (.ok .blank, n) => symbols? (cs.drop n)
    | (.ok (.token kind payload), n) =>
      (symbols? (cs.drop n)).map (pieceSymbol kind (c :: cs.take n) payload :: ·)
termination_by cs => cs.length
decreasing_by all_goals rw [List.length_drop, List.length_cons]; omega

/-- Where a text stands, and what is before it, does not change its symbols. -/
theorem lexFrom_symbols (found : List Token) (p : Position) (cs : List Char) :
    (lexFrom found p cs).toOption.map (List.map Token.symbol) =
      (symbols? cs).map fun ss =>
        (found.map Token.symbol).reverse ++ ss ++ [.fixed .endOfInput] := by
  fun_induction lexFrom found p cs with
  | case1 found p => simp [symbols?, Except.toOption, Token.symbol, Token.endOfInput]
  | case2 found p c cs n text stop span fault hpiece =>
    rw [symbols?, hpiece]
    rfl
  | case3 found p c cs n text stop hpiece ih => rw [ih, symbols?, hpiece]
  | case4 found p c cs n text stop span kind payload hpiece ih =>
    have hsymbol : Token.symbol ⟨kind, .ofList text, payload, p.line, span⟩ =
        pieceSymbol kind text payload := rfl
    rw [ih, symbols?, hpiece, Option.map_map, List.map_cons, hsymbol]
    congr 1
    funext ss
    simp only [Function.comp_apply, List.reverse_cons, List.append_assoc, List.cons_append,
      List.nil_append, text]

/-- No symbol of a text is the end marker. -/
theorem kind_ne_of_mem_symbols {cs : List Char} {ss : List Symbol} (h : symbols? cs = some ss) :
    ∀ s ∈ ss, s.kind ≠ .endOfInput := by
  fun_induction symbols? cs generalizing ss with
  | case1 =>
    cases h
    simp
  | case2 => cases h
  | case3 c cs n hpiece ih => exact ih h
  | case4 c cs n kind payload hpiece ih =>
    obtain ⟨ss, hss, rfl⟩ := Option.map_eq_some_iff.1 h
    have hkind := (munch_steady c).kind_ne hpiece
    intro s hs
    rcases List.mem_cons.1 hs with rfl | hs
    · rw [pieceSymbol, Token.kind_symbol]
      simpa [Piece.kind?] using hkind
    · exact ih hss s hs

/-- A newline between two texts separates their symbols. -/
theorem symbols?_append {cs ds : List Char} {ss : List Symbol} (h : symbols? cs = some ss) :
    symbols? (cs ++ '\n' :: ds) = (symbols? ds).map (ss ++ ·) := by
  fun_induction symbols? cs generalizing ss with
  | case1 =>
    -- nothing is left of the first text, and the newline itself is a blank
    cases h
    have hpiece : munch '\n' ds = (.ok .blank, 0) := rfl
    rw [List.nil_append, symbols?, hpiece]
    simp
  | case2 => cases h
  | case3 c cs n hpiece ih =>
    have hle := (munch_steady c).length_le hpiece
    rw [List.cons_append, symbols?, (munch_steady c).before_newline hpiece]
    dsimp only
    rw [List.drop_append_of_le_length hle]
    exact ih h
  | case4 c cs n kind payload hpiece ih =>
    obtain ⟨ss, hss, rfl⟩ := Option.map_eq_some_iff.1 h
    have hle := (munch_steady c).length_le hpiece
    rw [List.cons_append, symbols?, (munch_steady c).before_newline hpiece]
    dsimp only
    rw [List.drop_append_of_le_length hle, List.take_append_of_le_length hle, ih hss]
    simp [Function.comp_def]

/-! ### Token lists -/

/-- A blank that is found is passed over. -/
theorem lexFrom_of_blank {found : List Token} {p : Position} {c : Char} {text cs : List Char}
    (h : munch c (text ++ cs) = (.ok .blank, text.length)) :
    lexFrom found p (c :: (text ++ cs)) = lexFrom found (p.afterAll (c :: text)) cs := by
  rw [lexFrom, h]
  dsimp only
  rw [List.take_left, List.drop_left]

/-- The tokens of a source are what its symbols say, and an end marker. -/
theorem lex_eq_ok {source : String} {tokens : List Token} (h : lex source = .ok tokens) :
    ∃ ts eof, tokens = ts ++ [eof] ∧ eof.isEnd ∧
      symbols? source.toList = some (ts.map Token.symbol) ∧ ∀ t ∈ ts, t.isEnd = false := by
  have hsymbols := lexFrom_symbols [] .start source.toList
  have hlex : lexFrom [] .start source.toList = .ok tokens := h
  rw [hlex] at hsymbols
  obtain ⟨ss, hss, heq⟩ := Option.map_eq_some_iff.1 hsymbols.symm
  obtain ⟨ts, rest, rfl, hts, hrest⟩ := List.map_eq_append_iff.1 heq.symm
  obtain ⟨eof, rfl, heof⟩ := List.map_eq_singleton_iff.1 hrest
  rw [List.map_nil, List.reverse_nil, List.nil_append] at hts
  refine ⟨ts, eof, rfl, ?_, by rw [hss, hts], fun t ht => ?_⟩
  · simpa [Token.isEnd, Symbol.fixed] using congrArg Symbol.kind heof
  · have hkind := kind_ne_of_mem_symbols hss t.symbol (hts ▸ List.mem_map_of_mem ht)
    simpa [Token.isEnd] using hkind

/-- A source has tokens if its text has symbols. -/
theorem exists_lex_eq_ok {source : String} {ss : List Symbol}
    (h : symbols? source.toList = some ss) : ∃ tokens, lex source = .ok tokens := by
  have hsymbols := lexFrom_symbols [] .start source.toList
  rw [h] at hsymbols
  cases hlex : lexFrom [] .start source.toList with
  | ok tokens => exact ⟨tokens, hlex⟩
  | error e =>
    rw [hlex] at hsymbols
    cases hsymbols

end Lox
