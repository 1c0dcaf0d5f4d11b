import Lox.Proofs.Munch
import Lox.Proofs.SourceSpan

/-!
# Lexing a written text

Texts of tokens that are written with separators between them are read back as they were written.

* `Lexeme`: the text of a token, and `Lexeme.token`, the token that it is at a position;
* `Filler`, `Separator`: white space and comments that end;
* `Writing`: token texts with a separator between any two of them;
* `lex_writing`.
-/

namespace Lox

/-! ### What is written -/

/-- The text of a token of a kind. An integer is not too large for a literal. -/
structure Lexeme where
  kind : Kind
  text : List Char
  forms : kind.Forms text
  fits : kind = .integer → digitsValue 0 text ≤ maxInteger

/-- The token that a text is at a position. -/
def Lexeme.token (l : Lexeme) (p : Position) : Token :=
  ⟨l.kind, .ofList l.text, l.kind.payload? l.text, p.line, p.offset, p.offset + utf8Length l.text⟩

/-- The end marker of a text that ends at a position. -/
def Position.mark (p : Position) : Token := .endOfInput p.line p.offset

/-- White space and comments, each of which ends: a comment of a line with its newline, and a block
at its first `*/`. -/
inductive Closed : List Char → Prop
  | nil : Closed []
  | space {c : Char} {cs : List Char} (h : c ∈ spaces) (tail : Closed cs) : Closed (c :: cs)
  | line {body cs : List Char} (h : '\n' ∉ body) (tail : Closed cs) :
      Closed ('/' :: '/' :: (body ++ '\n' :: cs))
  | block {body cs : List Char} (h : ¬ ['*', '/'] <:+: body) (tail : Closed cs) :
      Closed ('/' :: '*' :: (body ++ '*' :: '/' :: cs))

/-- A text without tokens that leaves no comment open. -/
structure Filler where
  text : List Char
  closed : Closed text

/-- A filler that starts with white space. -/
structure Separator extends Filler where
  nonempty : text ≠ []
  head : ∀ c ∈ text.head?, c ∈ spaces

/-- Token texts in a row, with a separator after each but perhaps the last. -/
inductive Writing
  | nil
  | last (l : Lexeme)
  | cons (l : Lexeme) (s : Separator) (w : Writing)

namespace Writing

/-- The text that is written. -/
def text : Writing → List Char
  | nil => []
  | last l => l.text
  | cons l s w => l.text ++ (s.text ++ w.text)

/-- The tokens of a text that is written from a position on. -/
def tokens (p : Position) : Writing → List Token
  | nil => []
  | last l => [l.token p]
  | cons l s w => l.token p :: w.tokens (p.afterAll (l.text ++ s.text))

end Writing

/-! ### What is read -/

section LexFrom

variable (found : List Token) (p : Position)

theorem lexFrom_blank {blank rest : List Char} (h : Blank rest blank) :
    lexFrom found p (blank ++ rest) = lexFrom found (p.afterAll blank) rest := by
  obtain ⟨c, cs, rfl⟩ := List.exists_cons_of_ne_nil h.ne_nil
  exact lexFrom_of_blank (munch_blank h)

/-- A closed text is passed over, whatever follows it. -/
theorem lexFrom_closed {cs : List Char} (h : Closed cs) (rest : List Char) :
    lexFrom found p (cs ++ rest) = lexFrom found (p.afterAll cs) rest := by
  induction h generalizing p with
  | nil => rfl
  | @space c cs h tail ih =>
    rw [← List.singleton_append, List.append_assoc, lexFrom_blank found p (.space h), ih,
      Position.afterAll_append]
  | @line body cs h tail ih =>
    -- the newline is a blank of its own after the comment
    have hcs : '/' :: '/' :: (body ++ '\n' :: cs) = '/' :: '/' :: body ++ (['\n'] ++ cs) := by simp
    have hcomment : Blank (['\n'] ++ (cs ++ rest)) ('/' :: '/' :: body) := .line h (by simp)
    rw [hcs, List.append_assoc, List.append_assoc, lexFrom_blank found p hcomment,
      lexFrom_blank found _ (.space (by decide)), ih, Position.afterAll_append,
      Position.afterAll_append]
  | @block body cs h tail ih =>
    have hcs : '/' :: '*' :: (body ++ '*' :: '/' :: cs) =
        '/' :: '*' :: (body ++ ['*', '/']) ++ cs := by simp
    rw [hcs, List.append_assoc, lexFrom_blank found p (.block h), ih, Position.afterAll_append]

/-- The text of a token is read as that token, if it ends or white space follows. -/
theorem lexFrom_lexeme (l : Lexeme) {rest : List Char} (hrest : ∀ c ∈ rest.head?, c ∈ spaces) :
    lexFrom found p (l.text ++ rest) = lexFrom (l.token p :: found) (p.afterAll l.text) rest := by
  obtain ⟨kind, text, forms, fits⟩ := l
  obtain ⟨c, cs, rfl⟩ := List.exists_cons_of_ne_nil forms.ne_nil
  rw [List.cons_append, lexFrom, munch_forms forms fits hrest]
  simp only [List.take_left, List.drop_left, Lexeme.token, Position.offset_afterAll]

/-- The tokens of a text that is written are found in order. -/
theorem lexFrom_writing (w : Writing) :
    lexFrom found p w.text = .ok (found.reverse ++ w.tokens p ++ [(p.afterAll w.text).mark]) := by
  induction w generalizing found p with
  | nil => simp [Writing.text, Writing.tokens, lexFrom, Position.mark]
  | last l =>
    have hread : lexFrom found p (l.text ++ []) =
        lexFrom (l.token p :: found) (p.afterAll l.text) [] := lexFrom_lexeme found p l (by simp)
    rw [List.append_nil] at hread
    rw [Writing.text, hread]
    simp [Writing.tokens, lexFrom, Position.mark]
  | cons l s w ih =>
    have hhead : ∀ c ∈ (s.text ++ w.text).head?, c ∈ spaces := by
      obtain ⟨c, cs, hs⟩ := List.exists_cons_of_ne_nil s.nonempty
      have hspace := s.head
      rw [hs] at hspace ⊢
      exact hspace
    rw [Writing.text, lexFrom_lexeme found p l hhead, lexFrom_closed _ _ s.closed, ih]
    simp only [Writing.tokens, Position.afterAll_append, List.reverse_cons, List.append_assoc,
      List.cons_append, List.nil_append]

/-- The tokens of a text stand where it is written. -/
theorem Writing.covers (w : Writing) (before : List Char) :
    ∀ t ∈ w.tokens (Position.start.afterAll before),
      t.span.Covers (.ofList (before ++ w.text)) t.lexeme := by
  have hoffset : ∀ text, (Position.start.afterAll text).offset = utf8Length text := by
    intro text
    rw [Position.offset_afterAll, Position.start, Nat.zero_add]
  have one : ∀ (before after : List Char) (l : Lexeme),
      (l.token (Position.start.afterAll before)).span.Covers (.ofList (before ++ (l.text ++ after)))
        (l.token (Position.start.afterAll before)).lexeme := by
    intro before after l
    have hsource : (String.ofList (before ++ (l.text ++ after))).toList =
        before ++ l.text ++ after := by
      rw [String.toList_ofList, List.append_assoc]
    refine Span.covers_of_toList hsource (hoffset before).symm ?_
    rw [utf8Length_append, Lexeme.token, hoffset]
  induction w generalizing before with
  | nil => simp [tokens]
  | last l =>
    have hl := one before [] l
    rw [List.append_nil] at hl
    simpa [tokens, text] using hl
  | cons l s w ih =>
    intro t ht
    rcases List.mem_cons.1 ht with rfl | ht
    · exact one before (s.text ++ w.text) l
    · have hmore : before ++ (l.text ++ (s.text ++ w.text)) =
          before ++ (l.text ++ s.text) ++ w.text := by simp
      rw [← Position.afterAll_append] at ht
      rw [text, hmore]
      exact ih _ t ht

end LexFrom

/-- **Lexing undoes writing.** The tokens of a text that is written, after a filler, are its token
texts in order, each with its kind, the value that it writes and the place where it stands, and then
the end marker. Apart from its place, each of them is the only token of its text alone. -/
theorem lex_writing (lead : Filler) (w : Writing) :
    ∃ ts, lex (.ofList (lead.text ++ w.text)) =
        .ok (ts ++ [(Position.start.afterAll (lead.text ++ w.text)).mark]) ∧
      ts = w.tokens (Position.start.afterAll lead.text) ∧
      (∀ t ∈ ts, t.span.Covers (.ofList (lead.text ++ w.text)) t.lexeme) ∧
      ∀ l : Lexeme, lex (.ofList l.text) =
        .ok [l.token .start, (Position.start.afterAll l.text).mark] := by
  refine ⟨_, ?_, rfl, w.covers lead.text, ?_⟩
  · rw [lex, String.toList_ofList, lexFrom_closed _ _ lead.closed, lexFrom_writing,
      Position.afterAll_append]
    rfl
  · intro l
    rw [lex, String.toList_ofList]
    exact lexFrom_writing [] .start (.last l)

/-- A block comment that holds a quote and the marks of a line comment. -/
def blockSeparator : Separator where
  text := "\t/*\"//**/".toList
  closed := .space (by decide) (@Closed.block "\"//*".toList [] (by decide) .nil)
  nonempty := by decide
  head := by
    rintro _ ⟨⟩
    decide

/-- A line comment that holds the start of a block. -/
def lineSeparator : Separator where
  text := " ///*\n".toList
  closed := .space (by decide) (@Closed.line "/*".toList [] (by decide) .nil)
  nonempty := by decide
  head := by
    rintro _ ⟨⟩
    decide

/-- A quotient whose operands and comments hold the marks of other tokens. -/
def quotient : Writing :=
  .cons ⟨.string, "\"//\"".toList, @Kind.Forms.string "//".toList (by decide), by decide⟩
    blockSeparator <|
  .cons ⟨.slash, ['/'], .sign (by decide), by decide⟩ lineSeparator <|
  .last ⟨.integer, "007".toList, .integer (by decide) (List.all_eq_true.1 (by decide)), by decide⟩

example : lex "\"//\"\t/*\"//**// ///*\n007" =
    .ok (quotient.tokens .start ++ [(Position.start.afterAll quotient.text).mark]) := by
  decide +kernel

end Lox
