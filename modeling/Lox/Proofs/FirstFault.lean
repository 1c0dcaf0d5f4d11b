import Lox.Proofs.Excerpt
import Lox.Proofs.LineAgreement
import Lox.Proofs.Rendering

/-!
# The first fault of a source

What a source is rejected for, said without the lexer: blanks and tokens are passed over as long as
there are any, and where a string or a comment never ends, an integer is too large or no token can
start, the source is at fault.

* `LexFault.Stands`: the faults that may stand at the head of a text;
* `Scanned`: a text that is passed over before the rest of a source;
* `munch_fault`, `munch_longest`: what is found where a fault or a token stands;
* `Scanned.lexFrom_eq`, `Scanned.symbols`: what is passed over is lexed by itself;
* `LexError.ReachedIn`: the scan of a source reaches the fault of an error;
* `first_fault`.
-/

namespace Lox

/-! ### Faults -/

/-- A fault at the head of a text, with the characters that it covers and those behind them: a quote
without another one after it, the start of a comment that does not end, an integer whose value is
too large, or a character that is no white space and starts no token. -/
inductive LexFault.Stands : LexFault → List Char → List Char → Prop
  | unterminatedString {cs : List Char} (hopen : '"' ∉ cs) :
    Stands .unterminatedString ('"' :: cs) []
  | unterminatedComment {cs : List Char} (hopen : ¬ ['*', '/'] <:+: cs) :
    Stands .unterminatedComment ('/' :: '*' :: cs) []
  | integerTooLarge {digits rest : List Char} (nonempty : digits ≠ []) (all : ∀ d ∈ digits, d.isDigit)
    (stop : ∀ d ∈ rest.head?, d.isDigit = false) (hpoint : ¬ StartsFraction rest)
    (large : maxInteger < digitsValue 0 digits) : Stands .integerTooLarge digits rest
  | unexpectedCharacter {c : Char} {rest : List Char} (hspace : c ∉ spaces)
    (hstart : ∀ kind cs, ¬ Kind.Forms kind (c :: cs)) : Stands (.unexpectedCharacter c) [c] rest

/-- A fault stands at the head of a text. -/
def Faulty (cs : List Char) : Prop :=
  ∃ (fault : LexFault) (text rest : List Char), cs = text ++ rest ∧ fault.Stands text rest

/-- No token starts with a character that is not one of the first characters of tokens. -/
theorem not_forms_of_not_mem {c : Char} (hmark : c ∉ markChars) (hdigit : ¬ c.isDigit)
    (hword : ¬ isWordStart c) (kind : Kind) (cs : List Char) : ¬ kind.Forms (c :: cs) := by
  intro h
  cases h.shape with
  | sign hsign hname =>
    have hall : ∀ kind ∈ Kind.signs, kind.name.toList.head?.all (· ∈ markChars) := by decide
    have hfirst := hall _ hsign
    rw [hname] at hfirst
    exact hmark (of_decide_eq_true hfirst)
  | pair hpair =>
    have hall : ∀ p ∈ signPairs, p.1 ∈ markChars := by decide
    exact hmark (hall _ hpair)
  | word start => exact hword start
  | integer start => exact hdigit start
  | float start => exact hdigit start
  | string quote =>
    subst quote
    exact hmark (by decide)

/-- A comment without a length does not end. -/
theorem not_infix_of_commentLength? {n : Nat} {cs : List Char} (h : commentLength? n cs = none) :
    ¬ ['*', '/'] <:+: cs := by
  fun_induction commentLength? n cs with
  | case1 => cases h
  | case2 n c cs hne ih =>
    rw [List.infix_cons_iff, not_or]
    refine ⟨?_, ih h⟩
    rintro ⟨more, hmore⟩
    obtain ⟨rfl, rfl⟩ := List.cons.inj hmore
    exact hne _ rfl rfl
  | case3 => simp

theorem LexFault.FoundAt.stands {fault : LexFault} {c : Char} {cs : List Char} {n : Nat}
    (h : fault.FoundAt c cs n) : fault.Stands (c :: cs.take n) (cs.drop n) := by
  cases h with
  | unterminatedString hopen =>
    rw [List.take_length, List.drop_length]
    exact .unterminatedString hopen
  | @unterminatedComment cs hopen =>
    rw [← List.length_cons, List.take_length, List.drop_length]
    exact .unterminatedComment (not_infix_of_commentLength? hopen)
  | integerTooLarge all stop hpoint large =>
    rw [List.take_left, List.drop_left]
    exact .integerTooLarge (by simp) all stop hpoint large
  | unexpectedCharacter hmark hdigit hword =>
    rw [List.take_zero, List.drop_zero]
    refine .unexpectedCharacter (fun hspace => hmark ?_) (not_forms_of_not_mem hmark hdigit hword)
    exact List.mem_append_left _ hspace

section Munch

variable {fault : LexFault} {kind : Kind} {c : Char} {cs rest : List Char}

theorem LexFault.Stands.ne_nil {text : List Char} (h : fault.Stands text rest) : text ≠ [] := by
  cases h with
  | integerTooLarge nonempty => exact nonempty
  | _ => simp

theorem Blank.head_mem (h : Blank rest (c :: cs)) : c ∈ spaces ∨ c = '/' := by
  cases h with
  | space h => exact .inl h
  | line | block => exact .inr rfl

/-- A character that neither a blank nor a token starts with is found to be unexpected. -/
theorem munch_unexpected (hspace : c ∉ spaces)
    (hstart : ∀ kind cs, ¬ Kind.Forms kind (c :: cs)) (cs : List Char) :
    munch c cs = (.error (.unexpectedCharacter c), 0) := by
  have hslash : c ≠ '/' := by
    rintro rfl
    exact hstart .slash [] (.sign (by decide))
  rcases h : munch c cs with ⟨fault | _ | ⟨kind, payload⟩, n⟩
  · cases munch_eq_error h with
    | unterminatedString =>
      have hforms : Kind.Forms .string ('"' :: [] ++ ['"']) := .string (by simp)
      exact absurd hforms (hstart .string ['"'])
    | unterminatedComment => exact absurd rfl hslash
    | integerTooLarge all =>
      exact absurd (.integer (by simp) (by simpa using all c (by simp))) (hstart .integer [])
    | unexpectedCharacter => rfl
  · exact absurd (munch_eq_blank h).2.head_mem (not_or.2 ⟨hspace, hslash⟩)
  · exact absurd (munch_eq_token h).2.forms (hstart kind _)

/-- Where a fault stands, it is found. -/
theorem munch_fault (h : fault.Stands (c :: cs) rest) :
    munch c (cs ++ rest) = (.error fault, cs.length) := by
  cases h with
  | unterminatedString hopen =>
    have htake : (cs ++ []).takeWhile (· != '"') = cs :=
      takeWhile_append_stop (all_ne_of_not_mem hopen) (by simp)
    show munchString (cs ++ []) = _
    rw [munchString, htake, List.append_nil, if_neg (Nat.lt_irrefl _)]
  | @unterminatedComment cs hopen =>
    have hnone : commentLength? 1 cs = none := by
      cases hlength : commentLength? 1 cs with
      | none => rfl
      | some k =>
        obtain ⟨body, rest, rfl, -⟩ := commentLength?_eq_some hlength
        exact absurd ⟨body, rest, by simp⟩ hopen
    show munchSlash ('*' :: (cs ++ [])) = _
    rw [List.append_nil, munchSlash, hnone]
  | integerTooLarge nonempty all stop hpoint large =>
    have hpoint : ∀ d more, rest = '.' :: d :: more → ¬ d.isDigit :=
      fun d more hrest hd => hpoint ⟨d, more, hrest, hd⟩
    rw [munch_integer all stop hpoint, munchNumber.munchInteger, if_neg (Nat.not_le.2 large)]
  | unexpectedCharacter hspace hstart =>
    rw [List.nil_append]
    exact munch_unexpected hspace hstart rest

/-- Where a piece is found, no fault stands. -/
theorem not_faulty_of_munch {piece : Piece} {n : Nat} (h : munch c cs = (.ok piece, n)) :
    ¬ Faulty (c :: cs) := by
  rintro ⟨fault, text, rest, hcs, hstands⟩
  obtain ⟨d, text, rfl⟩ := List.exists_cons_of_ne_nil hstands.ne_nil
  obtain ⟨rfl, rfl⟩ := List.cons.inj hcs
  rw [List.append_eq, munch_fault hstands] at h
  cases h

/-- Where a token stands that is the longest one, and neither a blank nor a fault does, it is
found. -/
theorem munch_longest (solid : ¬ StartsBlank (c :: (cs ++ rest)))
    (sound : ¬ Faulty (c :: (cs ++ rest))) (longest : kind.Longest (c :: cs) (c :: (cs ++ rest))) :
    ∃ payload, munch c (cs ++ rest) = (.ok (.token kind payload), cs.length) := by
  have hsplit (n : Nat) : c :: (cs ++ rest) =
      c :: (cs ++ rest).take n ++ (cs ++ rest).drop n := by simp
  rcases h : munch c (cs ++ rest) with ⟨fault | _ | ⟨kind', payload⟩, n⟩
  · exact absurd ⟨fault, _, _, hsplit n, (munch_eq_error h).stands⟩ sound
  · exact absurd ⟨_, _, hsplit n, (munch_eq_blank h).2⟩ solid
  · -- neither of the two tokens is longer than the other
    obtain ⟨hn, hlongest⟩ := munch_eq_token h
    have hle := longest.longest _ _ hlongest.forms hlongest.starts
    have hge := hlongest.longest _ _ longest.forms longest.starts
    simp only [List.length_cons, List.length_take] at hle hge
    obtain rfl : n = cs.length := by omega
    rw [List.take_left] at hlongest
    rw [longest.forms.unique hlongest.forms]
    exact ⟨payload, rfl⟩

end Munch

/-! ### Scanning -/

/-- A text that is passed over before `rest`: a blank where one stands, and where neither a blank
nor a fault does, the longest token. -/
inductive Scanned (rest : List Char) : List Char → Prop
  | nil : Scanned rest []
  | blank {text cs : List Char} (head : Blank (cs ++ rest) text) (tail : Scanned rest cs) :
      Scanned rest (text ++ cs)
  | token {kind : Kind} {text cs : List Char} (solid : ¬ StartsBlank (text ++ (cs ++ rest)))
      (sound : ¬ Faulty (text ++ (cs ++ rest))) (longest : kind.Longest text (text ++ (cs ++ rest)))
      (tail : Scanned rest cs) : Scanned rest (text ++ cs)

namespace Scanned

variable {before rest : List Char}

/-- Lexing comes to what follows. -/
theorem lexFrom_eq (h : Scanned rest before) (found : List Token) (p : Position) :
    ∃ found', lexFrom found p (before ++ rest) = lexFrom found' (p.afterAll before) rest := by
  induction h generalizing found p with
  | nil => exact ⟨found, rfl⟩
  | @blank text cs head tail ih =>
    rw [List.append_assoc, lexFrom_blank found p head, Position.afterAll_append]
    exact ih found _
  | @token kind text cs solid sound longest tail ih =>
    obtain ⟨c, text, rfl⟩ := List.exists_cons_of_ne_nil longest.forms.ne_nil
    obtain ⟨payload, hpiece⟩ := munch_longest solid sound longest
    rw [List.append_assoc, List.cons_append, lexFrom_of_token hpiece, Position.afterAll_append]
    exact ih _ _

/-- What is passed over has symbols of its own: its pieces are found also when nothing follows. -/
theorem symbols (h : Scanned rest before) : ∃ ss, symbols? before = some ss := by
  have alone {c : Char} {text cs : List Char} {piece : Piece}
      (hpiece : munch c (text ++ (cs ++ rest)) = (.ok piece, text.length)) :
      munch c (text ++ cs) = (.ok piece, text.length) := by
    rw [← List.append_assoc] at hpiece
    rw [← List.append_nil (text ++ cs)]
    exact (munch_steady c).before hpiece (by simp) (by simp [Closing]) fun _ => .inr (by simp)
  induction h with
  | nil => exact ⟨[], by rw [symbols?]⟩
  | @blank text cs head tail ih =>
    obtain ⟨c, text, rfl⟩ := List.exists_cons_of_ne_nil head.ne_nil
    obtain ⟨ss, hss⟩ := ih
    refine ⟨ss, ?_⟩
    rw [List.cons_append, symbols?, alone (munch_blank head)]
    simpa using hss
  | @token kind text cs solid sound longest tail ih =>
    obtain ⟨c, text, rfl⟩ := List.exists_cons_of_ne_nil longest.forms.ne_nil
    obtain ⟨payload, hpiece⟩ := munch_longest solid sound longest
    obtain ⟨ss, hss⟩ := ih
    refine ⟨pieceSymbol kind (c :: text) payload :: ss, ?_⟩
    rw [List.cons_append, symbols?, alone hpiece]
    simp [hss]

end Scanned

/-- The error of a fault that covers a text that stands at `p`. Its line is the one behind it. -/
def LexFault.errorAt (fault : LexFault) (p : Position) (text : List Char) : LexError :=
  ⟨fault, ⟨p.offset, (p.afterAll text).offset⟩, (p.afterAll text).line⟩

theorem LexFault.errorAt_start (fault : LexFault) (before text : List Char) :
    fault.errorAt (Position.start.afterAll before) text =
      ⟨fault, ⟨utf8Length before, utf8Length (before ++ text)⟩,
        (before ++ text).count '\n' + 1⟩ := by
  have hline : 1 + before.count '\n' + text.count '\n' = (before ++ text).count '\n' + 1 := by
    rw [List.count_append]
    omega
  simp [errorAt, Position.start, hline]

/-- The scan of a source reaches the fault of an error. The error covers the text of the fault and
has the line behind it. -/
def LexError.ReachedIn (e : LexError) (source : String) : Prop :=
  ∃ before text rest, source.toList = before ++ (text ++ rest) ∧ Scanned (text ++ rest) before ∧
    e.fault.Stands text rest ∧ e.span = ⟨utf8Length before, utf8Length (before ++ text)⟩ ∧
    e.line = (before ++ text).count '\n' + 1

theorem LexError.ReachedIn.within {e : LexError} {source : String} (h : e.ReachedIn source) :
    e.span.Within source := by
  obtain ⟨before, text, rest, hsource, -, -, hspan, -⟩ := h
  rw [← List.append_assoc] at hsource
  exact ⟨.ofList text, Span.covers_of_toList hsource (by rw [hspan]) (by rw [hspan])⟩

/-- Where a fault stands, lexing ends with it. -/
theorem lexFrom_fault {fault : LexFault} {text rest : List Char} (h : fault.Stands text rest)
    (found : List Token) (p : Position) :
    lexFrom found p (text ++ rest) = .error (fault.errorAt p text) := by
  obtain ⟨c, text, rfl⟩ := List.exists_cons_of_ne_nil h.ne_nil
  rw [List.cons_append, lexFrom, munch_fault h]
  dsimp only
  rw [List.take_left, LexFault.errorAt]

/-- A text that stands at `p` and has an error is passed over up to the fault of the error. -/
theorem exists_scanned_of_error {found : List Token} {p : Position} {cs : List Char} {e : LexError}
    (h : lexFrom found p cs = .error e) : ∃ before text rest, cs = before ++ (text ++ rest) ∧
      Scanned (text ++ rest) before ∧ e.fault.Stands text rest ∧
      e = e.fault.errorAt (p.afterAll before) text := by
  fun_induction lexFrom found p cs with
  | case1 => cases h
  | case2 found p c cs n text stop span fault hpiece =>
    cases h
    exact ⟨[], text, cs.drop n, by simp [text], .nil, (munch_eq_error hpiece).stands, rfl⟩
  | case3 found p c cs n text stop hpiece ih =>
    obtain ⟨before, fault, rest, hcs, hscan, hstands, he⟩ := ih h
    obtain ⟨-, hblank⟩ := munch_eq_blank hpiece
    have htext : c :: cs = text ++ (before ++ (fault ++ rest)) := by
      rw [← hcs]
      simp [text]
    rw [hcs] at hblank
    refine ⟨text ++ before, fault, rest, by rw [htext, List.append_assoc], .blank hblank hscan,
      hstands, ?_⟩
    rwa [Position.afterAll_append]
  | case4 found p c cs n text stop span kind payload hpiece ih =>
    obtain ⟨before, fault, rest, hcs, hscan, hstands, he⟩ := ih h
    obtain ⟨-, hlongest⟩ := munch_eq_token hpiece
    have solid := not_startsBlank_of_munch hpiece
    have sound := not_faulty_of_munch hpiece
    have htext : c :: cs = text ++ (before ++ (fault ++ rest)) := by
      rw [← hcs]
      simp [text]
    rw [htext] at hlongest solid sound
    refine ⟨text ++ before, fault, rest, by rw [htext, List.append_assoc],
      .token solid sound hlongest hscan, hstands, ?_⟩
    rwa [Position.afterAll_append]

theorem lex_reached {source : String} {e : LexError} (h : lex source = .error e) :
    e.ReachedIn source := by
  obtain ⟨before, text, rest, hsource, hscan, hstands, he⟩ := exists_scanned_of_error h
  rw [LexFault.errorAt_start] at he
  exact ⟨before, text, rest, hsource, hscan, hstands, congrArg LexError.span he,
    congrArg LexError.line he⟩

/-- The error of a source that is not too long has the span of its range of offsets. -/
theorem lexError_ofRange {source : String} (hsize : source.utf8ByteSize ≤ Span.maxOffset)
    {e : LexError} (h : lex source = .error e) : Span.ofRange e.span.start e.span.stop = e.span :=
  (lex_reached h).within.ofRange_eq hsize

/-- **Lexing fails exactly at the first fault.** A source is rejected with an error if and only if
its scan, blank by blank and token by token, reaches the fault of the error: a quote without another
one behind it, a comment that does not end, an integer that is too large, or a character that no
token starts with. The error covers that text, between characters of the source, and what stands
before it has tokens when it is lexed alone. -/
theorem first_fault (source : String) (e : LexError) :
    (lex source = .error e ↔ e.ReachedIn source) ∧
    (lex source = .error e → e.span.Within source ∧ ∃ before after tokens,
      source = before ++ after ∧ before.utf8ByteSize = e.span.start ∧ lex before = .ok tokens) := by
  refine ⟨⟨lex_reached, ?_⟩, fun h => ?_⟩
  · rintro ⟨before, text, rest, hsource, hscan, hstands, hspan, hline⟩
    obtain ⟨found, hlex⟩ := hscan.lexFrom_eq [] .start
    rw [lex, hsource, hlex, lexFrom_fault hstands, LexFault.errorAt_start, ← hspan, ← hline]
  · obtain ⟨before, text, rest, hsource, hscan, -, hspan, -⟩ := lex_reached h
    obtain ⟨ss, hss⟩ := hscan.symbols
    have hsymbols : symbols? (String.ofList before).toList = some ss := by
      rwa [String.toList_ofList]
    obtain ⟨tokens, htokens⟩ := exists_lex_eq_ok hsymbols
    refine ⟨(lex_reached h).within, .ofList before, .ofList (text ++ rest), tokens, ?_, ?_,
      htokens⟩
    · rw [← String.ofList_append, ← hsource, String.ofList_toList]
    · rw [utf8ByteSize_ofList, hspan]

/-- A string that holds the start of a comment, a comment that holds a quote, a float whose digits
are too many for an integer, and a character of two bytes that starts no token. -/
def hiddenSource : String := "\"/*\" /*\"/**/\n9999999999999999999.9 é\""

/-- The character is the fault, and not the quote behind it. -/
theorem first_fault_hiddenSource :
    lex hiddenSource = .error ⟨.unexpectedCharacter 'é', ⟨35, 37⟩, 2⟩ ∧
    LexError.ReachedIn ⟨.unexpectedCharacter 'é', ⟨35, 37⟩, 2⟩ hiddenSource ∧
    (Span.mk 35 37).Within hiddenSource ∧ ∃ before after tokens,
      hiddenSource = before ++ after ∧ before.utf8ByteSize = 35 ∧ lex before = .ok tokens := by
  have hlex : lex hiddenSource = .error ⟨.unexpectedCharacter 'é', ⟨35, 37⟩, 2⟩ := by
    decide +kernel
  obtain ⟨hreached, hwithin⟩ := first_fault hiddenSource ⟨.unexpectedCharacter 'é', ⟨35, 37⟩, 2⟩
  exact ⟨hlex, hreached.1 hlex, hwithin hlex⟩

end Lox
