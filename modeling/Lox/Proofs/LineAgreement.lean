import Lox.Problem
import Lox.Diagnostic.Terminal
import Lox.Proofs.LineColumn
import Lox.Proofs.ParserTotality

/-!
# Lines

The line that a lexer counts, the line that a table of a source gives and the line that a walk over
the source finds are the same: one more than the newline bytes before.

* `newlinesBefore`: the newline bytes before an offset, with `line_eq_newlinesBefore` and
  `lineNumber_eq_newlinesBefore` for every offset;
* `Position.Before`: the position of a source before what is left of it;
* `LexFault.FoundAt`, `munch_eq_error`: what is at the head of a text that has no next piece;
* `LexError.mark`, `lexFrom_placed`: the lines of tokens and of the errors of a lexer;
* `ParseError.reportOn`: a report with one line, and `exists_reportOn`;
* `lines_agree`.
-/

namespace Lox

/-! ### Newline bytes -/

/-- The newline bytes among the first `n` bytes of characters. -/
def newlineBytes (n : Nat) (cs : List Char) : Nat :=
  ((cs.flatMap String.utf8EncodeChar).take n).count 10

/-- The newline bytes of a source before an offset. -/
def newlinesBefore (source : String) (offset : Nat) : Nat :=
  (source.toUTF8.data.toList.take offset).count 10

theorem newlinesBefore_eq (source : String) (offset : Nat) :
    newlinesBefore source offset = newlineBytes offset source.toList := by
  have hbytes : source.toUTF8 = (source.toList.flatMap String.utf8EncodeChar).toByteArray :=
    String.utf8Encode_toList.symm
  rw [newlinesBefore, newlineBytes, hbytes, List.toList_data_toByteArray]

/-- A byte whose highest bit is set is no newline. -/
theorem newline_ne_ofNat {n : Nat} (h : 128 ≤ n) (h' : n < 256) : (10 : UInt8) ≠ .ofNat n := by
  intro heq
  have : 10 = n % 256 := congrArg UInt8.toNat heq
  omega

/-- No byte of another character is a newline. -/
theorem newline_not_mem_utf8EncodeChar {c : Char} (hc : c ≠ '\n') :
    (10 : UInt8) ∉ String.utf8EncodeChar c := by
  have hnat : c.toNat ≠ 10 := fun h => hc (Char.toNat_inj.1 h)
  have high {n : Nat} (h : 128 ≤ n) (h' : n < 256) := newline_ne_ofNat h h'
  intro h
  unfold String.utf8EncodeChar at h
  dsimp only at h
  split at h
  · have hval : c.val.toNat = c.toNat := rfl
    have hbyte : 10 = c.val.toNat % 256 := congrArg UInt8.toNat (List.mem_singleton.1 h)
    omega
  · split at h
    · simp only [List.mem_cons, List.not_mem_nil, or_false] at h
      rcases h with h | h <;> exact high (by omega) (by omega) h
    · split at h
      · simp only [List.mem_cons, List.not_mem_nil, or_false] at h
        rcases h with h | h | h <;> exact high (by omega) (by omega) h
      · simp only [List.mem_cons, List.not_mem_nil, or_false] at h
        rcases h with h | h | h | h <;> exact high (by omega) (by omega) h

theorem newlineBytes_cons (n : Nat) (c : Char) (cs : List Char) :
    newlineBytes n (c :: cs) =
      (if c = '\n' ∧ 0 < n then 1 else 0) + newlineBytes (n - c.utf8Size) cs := by
  have hfirst : ((String.utf8EncodeChar c).take n).count 10 =
      if c = '\n' ∧ 0 < n then 1 else 0 := by
    by_cases hc : c = '\n'
    · subst hc
      cases n <;> simp [String.utf8EncodeChar]
    · rw [if_neg fun h => hc h.1, List.count_eq_zero]
      exact fun h => newline_not_mem_utf8EncodeChar hc (List.mem_of_mem_take h)
  rw [newlineBytes, newlineBytes, List.flatMap_cons, List.take_append, List.count_append, hfirst,
    String.length_utf8EncodeChar]

/-- The lines that start behind a newline among the first bytes. -/
theorem countP_lineStarts (offset n : Nat) (cs : List Char) :
    (lineStarts offset cs).countP (· ≤ offset + n) = newlineBytes n cs := by
  induction cs generalizing offset n with
  | nil => simp [lineStarts, newlineBytes]
  | cons c cs ih =>
    have htail : (lineStarts (offset + c.utf8Size) cs).countP (· ≤ offset + n) =
        newlineBytes (n - c.utf8Size) cs := by
      rcases Nat.le_total c.utf8Size n with hle | hle
      · rw [← ih (offset + c.utf8Size)]
        congr 2
        funext k
        rw [show offset + c.utf8Size + (n - c.utf8Size) = offset + n by omega]
      · rw [Nat.sub_eq_zero_of_le hle, List.countP_eq_zero.2]
        · simp [newlineBytes]
        · intro k hk
          have := bounds_of_mem_lineStarts hk
          simp only [decide_eq_true_eq]
          omega
    rw [lineStarts, newlineBytes_cons]
    split
    · next hc =>
      rw [List.countP_cons, htail, Nat.add_comm]
      simp [hc, Nat.pos_iff_ne_zero, Nat.one_le_iff_ne_zero]
    · next hc => rw [htail, if_neg fun h => hc h.1, Nat.zero_add]

theorem lineFrom_eq (offset : Nat) (p : Position) (cs : List Char) :
    lineFrom offset p cs = p.line + newlineBytes (offset - p.offset) cs := by
  induction cs generalizing p with
  | nil => simp [lineFrom, newlineBytes]
  | cons c cs ih =>
    rw [lineFrom]
    split
    · next h =>
      rw [ih, newlineBytes_cons, Position.after]
      dsimp only
      rw [Nat.sub_sub]
      by_cases hc : c = '\n'
      · rw [if_pos hc, if_pos ⟨hc, by omega⟩]
        omega
      · rw [if_neg hc, if_neg fun h => hc h.1]
        omega
    · next h =>
      rw [Nat.sub_eq_zero_of_le (by omega)]
      simp [newlineBytes]

/-- At every offset, the line that a table gives is one more than the newline bytes before. -/
theorem line_eq_newlinesBefore (source : String) (offset : Nat) :
    (LineTable.build source).line offset = 1 + newlinesBefore source offset := by
  have hcount := countP_lineStarts 0 offset source.toList
  rw [Nat.zero_add] at hcount
  rw [LineTable.line_build, newlinesBefore_eq, List.countP_cons, hcount]
  simp [Nat.add_comm]

/-- At every offset, the line that a walk finds is one more than the newline bytes before. -/
theorem lineNumber_eq_newlinesBefore (source : String) (offset : Nat) :
    lineNumber source offset = 1 + newlinesBefore source offset := by
  rw [lineNumber, lineFrom_eq, newlinesBefore_eq]
  rfl

/-! ### Positions and faults -/

/-- The position of a source before what is left of it. -/
def Position.Before (source : String) (rest : List Char) (p : Position) : Prop :=
  ∃ text, source.toList = text ++ rest ∧ p.offset = utf8Length text ∧
    p.line = text.count '\n' + 1

namespace Position.Before

variable {source : String} {text rest : List Char} {p : Position}

theorem start (source : String) : Position.start.Before source source.toList :=
  ⟨[], rfl, rfl, rfl⟩

theorem afterAll (h : p.Before source (text ++ rest)) : (p.afterAll text).Before source rest := by
  obtain ⟨before, hsource, hoffset, hline⟩ := h
  refine ⟨before ++ text, by rw [hsource, List.append_assoc], ?_, ?_⟩
  · rw [offset_afterAll, hoffset, utf8Length_append]
  · rw [line_afterAll, hline, List.count_append]
    omega

theorem line_eq (h : p.Before source rest) : p.line = (LineTable.build source).line p.offset := by
  obtain ⟨before, hsource, hoffset, hline⟩ := h
  rw [hline, hoffset, LineTable.line_eq hsource]

end Position.Before

/-- The characters that a blank or a token may start with, if it is no word and no number. -/
def markChars : List Char :=
  spaces ++ ['(', ')', '{', '}', ',', '.', ';', '-', '+', '*', '&', '|', '^', '~', '/', '!', '=',
    '<', '>', '"']

/-- What is at the head of a text that has no next piece, and how many characters after the first
one a fault covers. -/
inductive LexFault.FoundAt : LexFault → Char → List Char → Nat → Prop
  | unterminatedString {cs : List Char} (hopen : '"' ∉ cs) :
    FoundAt .unterminatedString '"' cs cs.length
  | unterminatedComment {cs : List Char} (hopen : commentLength? 1 cs = none) :
    FoundAt .unterminatedComment '/' ('*' :: cs) (cs.length + 1)
  | integerTooLarge {c : Char} {digits rest : List Char} (all : ∀ d ∈ c :: digits, d.isDigit)
    (stop : ∀ d ∈ rest.head?, d.isDigit = false) (hpoint : ¬ StartsFraction rest)
    (large : maxInteger < digitsValue 0 (c :: digits)) :
    FoundAt .integerTooLarge c (digits ++ rest) digits.length
  | unexpectedCharacter {c : Char} {cs : List Char} (hmark : c ∉ markChars)
    (hdigit : ¬ c.isDigit) (hword : ¬ isWordStart c) : FoundAt (.unexpectedCharacter c) c cs 0

theorem munchNumber_eq_error {c : Char} {cs : List Char} {fault : LexFault} {n : Nat}
    (hc : c.isDigit) (h : munchNumber c cs = (.error fault, n)) : fault.FoundAt c cs n := by
  obtain ⟨digits, rest, rfl, hdigits, hstop⟩ := exists_run Char.isDigit cs
  have htake : (digits ++ rest).takeWhile Char.isDigit = digits :=
    takeWhile_append_stop hdigits hstop
  by_cases hfraction : StartsFraction rest
  · obtain ⟨d, more, rfl, hd⟩ := hfraction
    rw [munchNumber_of_fraction (by rw [htake, List.drop_left]) hd] at h
    cases h
  · rw [munchNumber_of_not_fraction (by rwa [htake, List.drop_left]), htake] at h
    unfold munchNumber.munchInteger at h
    dsimp only at h
    split at h
    · cases h
    · next hlarge =>
      cases h
      exact .integerTooLarge (by simpa [hc] using hdigits) hstop hfraction (by omega)

theorem munchString_eq_error {cs : List Char} {fault : LexFault} {n : Nat}
    (h : munchString cs = (.error fault, n)) : fault.FoundAt '"' cs n := by
  obtain ⟨contents, rest, rfl, hcontents, hstop⟩ := exists_run (· != '"') cs
  rw [munchString, takeWhile_append_stop hcontents hstop] at h
  split at h
  · cases h
  · next hlt =>
    cases h
    obtain rfl : rest = [] := by
      rw [List.length_append] at hlt
      exact List.eq_nil_of_length_eq_zero (by omega)
    refine .unterminatedString fun hmem => ?_
    simpa using hcontents '"' (by simpa using hmem)

theorem munchSlash_eq_error {cs : List Char} {fault : LexFault} {n : Nat}
    (h : munchSlash cs = (.error fault, n)) : fault.FoundAt '/' cs n := by
  unfold munchSlash at h
  split at h
  · cases h
  · next rest =>
    split at h
    · cases h
    · next hopen =>
      cases h
      exact .unterminatedComment hopen
  · cases h

theorem munchLonger_ne_error {cs : List Char} {short : Kind} {long : List (Char × Kind)}
    {fault : LexFault} {n : Nat} : munchLonger cs short long ≠ (.error fault, n) := by
  intro h
  unfold munchLonger at h
  split at h
  · split at h <;> cases h
  · cases h

theorem munchPlain_eq_error {c : Char} {cs : List Char} {fault : LexFault} {n : Nat}
    (hmark : c ∉ markChars) (h : munchPlain c cs = (.error fault, n)) : fault.FoundAt c cs n := by
  unfold munchPlain at h
  split at h
  · next hc => exact munchNumber_eq_error hc h
  · next hdigit =>
    split at h
    · cases h
    · next hword =>
      cases h
      exact .unexpectedCharacter hmark hdigit hword

theorem munch_eq_error {c : Char} {cs : List Char} {fault : LexFault} {n : Nat}
    (h : munch c cs = (.error fault, n)) : fault.FoundAt c cs n := by
  unfold munch at h
  split at h
  all_goals first
    | cases h
    | exact munchSlash_eq_error h
    | exact absurd h munchLonger_ne_error
    | exact munchString_eq_error h
    | refine munchPlain_eq_error ?_ h
  -- none of the cases above is this one
  simp only [markChars, spaces, List.cons_append, List.nil_append, List.mem_cons]
  grind

/-- The text of a fault other than an open end has no newline. -/
theorem LexFault.FoundAt.newline_not_mem {fault : LexFault} {c : Char} {cs : List Char} {n : Nat}
    (h : fault.FoundAt c cs n) (hstring : fault ≠ .unterminatedString)
    (hcomment : fault ≠ .unterminatedComment) : '\n' ∉ c :: cs.take n := by
  cases h with
  | unterminatedString => exact absurd rfl hstring
  | unterminatedComment => exact absurd rfl hcomment
  | integerTooLarge all =>
    rw [List.take_left]
    exact fun hmem => absurd (all _ hmem) (by decide)
  | unexpectedCharacter hmark =>
    rw [List.take_zero, List.mem_singleton]
    rintro rfl
    exact hmark (by decide)

/-- The offset whose line an error is reported on: the end of the source, if something is open
there, and the start of the fault otherwise. -/
def LexError.mark (e : LexError) : Nat :=
  match e.fault with
  | .unterminatedString | .unterminatedComment => e.span.stop
  | .unexpectedCharacter _ | .integerTooLarge => e.span.start

/-- Tokens whose lines are those that they start on, or an error with the line of its mark. -/
def Placed (source : String) : Except LexError (List Token) → Prop
  | .ok tokens => ∀ t ∈ tokens, ∃ rest, Position.Before source rest ⟨t.span.start, t.line⟩
  | .error e => ∃ rest, Position.Before source rest ⟨e.mark, e.line⟩

/-- The line that a lexer counts is that of the place where it stands. -/
theorem lexFrom_placed {source : String} {found : List Token} {p : Position} {cs : List Char}
    (h : p.Before source cs)
    (hfound : ∀ t ∈ found, ∃ rest, Position.Before source rest ⟨t.span.start, t.line⟩) :
    Placed source (lexFrom found p cs) := by
  have next {p : Position} {c : Char} {cs : List Char} (n : Nat) (h : p.Before source (c :: cs)) :
      (p.afterAll (c :: cs.take n)).Before source (cs.drop n) :=
    .afterAll (by rwa [List.cons_append, List.take_append_drop])
  fun_induction lexFrom found p cs with
  | case1 found p =>
    intro t ht
    rcases List.mem_cons.1 (List.mem_reverse.1 ht) with rfl | ht
    · exact ⟨[], h⟩
    · exact hfound t ht
  | case2 found p c cs n text stop span fault hpiece =>
    have hfault := munch_eq_error hpiece
    have hstart (hnewline : '\n' ∉ text) : stop.line = p.line := by
      rw [Position.line_afterAll, List.count_eq_zero.2 hnewline, Nat.add_zero]
    cases fault with
    | unterminatedString | unterminatedComment => exact ⟨_, next n h⟩
    | unexpectedCharacter | integerTooLarge =>
      refine ⟨c :: cs, ?_⟩
      show Position.Before source _ ⟨p.offset, stop.line⟩
      rw [hstart (hfault.newline_not_mem (by simp) (by simp))]
      exact h
  | case3 found p c cs n text stop hpiece ih => exact ih (next n h) hfound
  | case4 found p c cs n text stop span kind payload hpiece ih =>
    refine ih (next n h) fun t ht => ?_
    rcases List.mem_cons.1 ht with rfl | ht
    · exact ⟨_, h⟩
    · exact hfound t ht

/-! ### Parse errors -/

/-- The report of a diagnostic with one label and one note, without colours. -/
theorem report_eq (source : Option String) (code : Code) (message found note : String)
    (span : Span) : Diagnostic.report false source ⟨code, message, [⟨span, found⟩], [note]⟩ =
      s!"error[{code.text}]: {message}\n" ++ s!"  --> {renderPlace source span}: {found}\n" ++
        s!"  = note: {note}\n" := by
  rw [← String.toList_inj]
  simp [Diagnostic.report, Diagnostic.pieces, Diagnostic.labelPieces, Diagnostic.notePieces,
    Styled.render, String.join, toString]

/-- The report of a parse error that has one line in its label and in its note. -/
def ParseError.reportOn (e : ParseError) (line column : Nat) (found : String) : String :=
  let place := s!"{line}:{column}"
  let note := s!"parse error on line {line}"
  s!"error[{e.fault.code.text}]: {e.fault.message}\n" ++ s!"  --> {place}: {found}\n" ++
    s!"  = note: {note}\n"

/-- A parse error that has the line of its place is reported on this line. -/
theorem exists_reportOn {source : String} {e : ParseError}
    (h : e.line = (LineTable.build source).line e.span.start) :
    ∃ column found, e.diagnostic.report false (some source) = e.reportOn e.line column found := by
  obtain ⟨found, hfound⟩ : ∃ found, e.diagnostic =
      ⟨e.fault.code, e.fault.message, [⟨e.span, found⟩], [s!"parse error on line {e.line}"]⟩ :=
    ⟨_, rfl⟩
  have hplace : renderPlace (some source) e.span =
      s!"{e.line}:{((LineTable.build source).lineColumn source e.span.start).2}" := by
    rw [h]
    rfl
  exact ⟨_, found, by rw [hfound, report_eq, hplace, ParseError.reportOn]⟩

/-! ### Lines -/

/-- **The ways to compute a line agree.** For every source:

* at every offset, a table of the source and a walk over it give one more than the newline bytes
  before;
* every token has the line of its start, the end marker too;
* a parse error has the line of its place, in its message and, whether place or note is read, in its
  report;
* an error of the lexer has the line of its mark. -/
theorem lines_agree (source : String) :
    (∀ offset, (LineTable.build source).line offset = 1 + newlinesBefore source offset ∧
      lineNumber source offset = 1 + newlinesBefore source offset) ∧
    (∀ tokens, lex source = .ok tokens →
      (∀ t ∈ tokens, t.line = (LineTable.build source).line t.span.start) ∧
      ∀ names e, (parse names tokens).1 = .error e →
        ∃ line column found, line = (LineTable.build source).line e.span.start ∧
          e.message = s!"[line {line}] Error {e.location}: {e.fault.message}" ∧
          e.diagnostic.report false (some source) = e.reportOn line column found) ∧
    ∀ e, lex source = .error e → e.line = (LineTable.build source).line e.mark := by
  have hplaced : Placed source (lexFrom [] .start source.toList) :=
    lexFrom_placed (.start source) nofun
  refine ⟨fun offset => ⟨line_eq_newlinesBefore source offset,
    lineNumber_eq_newlinesBefore source offset⟩, fun tokens h => ?_, fun e h => ?_⟩
  · have hlex : lexFrom [] .start source.toList = .ok tokens := h
    rw [hlex] at hplaced
    have htokens (t : Token) (ht : t ∈ tokens) :
        t.line = (LineTable.build source).line t.span.start := by
      obtain ⟨rest, hrest⟩ := hplaced t ht
      exact hrest.line_eq
    refine ⟨htokens, fun names e he => ?_⟩
    obtain ⟨ts, eof, rfl, heof, -⟩ := lex_eq_ok h
    obtain ⟨t, ht, hblamed⟩ := Parser.parse_blames ⟨eof, by simp, heof⟩ he
    have hline : e.line = (LineTable.build source).line e.span.start := by
      rw [hblamed]
      exact htokens t (List.mem_of_mem_take ht)
    obtain ⟨column, found, hreport⟩ := exists_reportOn hline
    exact ⟨e.line, column, found, hline, rfl, hreport⟩
  · have hlex : lexFrom [] .start source.toList = .error e := h
    rw [hlex] at hplaced
    obtain ⟨rest, hrest⟩ := hplaced
    exact hrest.line_eq

/-- A string and a comment that end on other lines than they start on, and no operand after them. -/
def spreadSource : String := "\"é\n\" /*\r\n*/ +"

/-- The operator is on the third line, and so is the end, where an operand is missed. -/
theorem lines_agree_spreadSource : ∃ tokens e, lex spreadSource = .ok tokens ∧
    tokens.map (·.line) = [1, 3, 3] ∧ (parse .fresh tokens).1 = .error e ∧ e.line = 3 ∧
    (∀ t ∈ tokens, t.line = (LineTable.build spreadSource).line t.span.start) ∧
    ∃ line column found, line = (LineTable.build spreadSource).line e.span.start ∧
      e.message = s!"[line {line}] Error {e.location}: {e.fault.message}" ∧
      e.diagnostic.report false (some spreadSource) = e.reportOn line column found := by
  have hlines : (lex spreadSource).toOption.map (·.map (·.line)) = some [1, 3, 3] := by
    decide +kernel
  have hline : (lex spreadSource).toOption.bind (fun tokens =>
      match (parse .fresh tokens).1 with
      | .ok _ => none
      | .error e => some e.line) = some 3 := by
    decide +kernel
  obtain ⟨-, htokens, -⟩ := lines_agree spreadSource
  cases hlex : lex spreadSource with
  | error e =>
    rw [hlex] at hlines
    cases hlines
  | ok tokens =>
    obtain ⟨hplaces, herrors⟩ := htokens tokens hlex
    rw [hlex] at hlines hline
    simp only [Except.toOption, Option.bind_some] at hline
    split at hline
    · cases hline
    · next e hparse =>
      exact ⟨tokens, e, rfl, Option.some.inj hlines, hparse, Option.some.inj hline, hplaces,
        herrors _ e hparse⟩

end Lox
