import Mathlib.Data.List.Forall2
import Lox.Proofs.Lexing
import Lox.Proofs.SourceSpan

/-!
# Excerpts of a source

The text from the start of one token of a source to the end of another has the tokens between them,
with spans that are counted from its own start.

* `Skips`, `Cut`: a text that is cut into blanks and tokens, and ends with a token, before some
  other text; `lexFrom_cut` and `Cut.lexFrom`;
* `Cut.split`, `Cut.strip`: a part of such a text, from one token to another;
* `Cut.move`: such a text elsewhere, with something else after it;
* `Token.Shifted`, `lex_excerpt`.
-/

namespace Lox

/-! ### Blanks and tokens -/

/-- Blanks that are found one after the other before `rest`. -/
inductive Skips (rest : List Char) : List Char → Prop
  | nil : Skips rest []
  | cons {c : Char} {blank cs : List Char}
      (piece : munch c (blank ++ (cs ++ rest)) = (.ok .blank, blank.length))
      (tail : Skips rest cs) : Skips rest (c :: (blank ++ cs))

/-- The token of a text that stands at `p`. -/
def tokenAt (p : Position) (text : List Char) (kind : Kind) (payload : Option Payload) : Token :=
  ⟨kind, .ofList text, payload, p.line, ⟨p.offset, (p.afterAll text).offset⟩⟩

/-- A text that stands at `p` before `rest`, and is cut into blanks and tokens. It ends with the
last token. -/
inductive Cut (rest : List Char) : Position → List Char → List Token → Prop
  | nil {p : Position} : Cut rest p [] []
  | cons {p : Position} {c : Char} {gap text cs : List Char} {kind : Kind}
      {payload : Option Payload} {ts : List Token} (skips : Skips (c :: (text ++ (cs ++ rest))) gap)
      (piece : munch c (text ++ (cs ++ rest)) = (.ok (.token kind payload), text.length))
      (tail : Cut rest ((p.afterAll gap).afterAll (c :: text)) cs ts) :
      Cut rest p (gap ++ c :: (text ++ cs))
        (tokenAt (p.afterAll gap) (c :: text) kind payload :: ts)

theorem lexFrom_of_token {found : List Token} {p : Position} {c : Char} {text cs : List Char}
    {kind : Kind} {payload : Option Payload}
    (h : munch c (text ++ cs) = (.ok (.token kind payload), text.length)) :
    lexFrom found p (c :: (text ++ cs)) =
      lexFrom (tokenAt p (c :: text) kind payload :: found) (p.afterAll (c :: text)) cs := by
  rw [lexFrom, h]
  dsimp only
  rw [List.take_left, List.drop_left]
  rfl

variable {rest : List Char} {p : Position} {cs : List Char} {t : Token} {ts : List Token}

theorem Skips.lexFrom {gap : List Char} (h : Skips rest gap) (found : List Token) (p : Position) :
    lexFrom found p (gap ++ rest) = lexFrom found (p.afterAll gap) rest := by
  induction h generalizing p with
  | nil => rfl
  | @cons c blank cs piece _ ih =>
    rw [List.cons_append, List.append_assoc, lexFrom_of_blank piece, ih, ← Position.afterAll_append,
      List.cons_append]

/-- Lexing goes over a text that is cut into tokens, and finds them. -/
theorem Cut.lexFrom (h : Cut rest p cs ts) (found : List Token) :
    lexFrom found p (cs ++ rest) = lexFrom (ts.reverse ++ found) (p.afterAll cs) rest := by
  induction h generalizing found with
  | nil => rfl
  | @cons p c gap text cs kind payload ts skips piece _ ih =>
    have hcs : gap ++ c :: (text ++ cs) ++ rest = gap ++ c :: (text ++ (cs ++ rest)) := by simp
    have hstop : p.afterAll (gap ++ c :: (text ++ cs)) =
        ((p.afterAll gap).afterAll (c :: text)).afterAll cs := by
      simp only [← Position.afterAll_append, List.append_assoc, List.cons_append]
    rw [hcs, skips.lexFrom, lexFrom_of_token piece, ih, hstop, List.reverse_cons, List.append_assoc,
      List.singleton_append]

/-- A blank before a text makes its first gap longer. -/
theorem Cut.blank_append {c : Char} {blank : List Char} (hne : ts ≠ [])
    (piece : munch c (blank ++ (cs ++ rest)) = (.ok .blank, blank.length))
    (h : Cut rest (p.afterAll (c :: blank)) cs ts) : Cut rest p (c :: (blank ++ cs)) ts := by
  cases h with
  | nil => exact absurd rfl hne
  | @cons _ d gap text cs kind payload ts skips piece' tail =>
    have hcs : c :: (blank ++ (gap ++ d :: (text ++ cs))) =
        c :: (blank ++ gap) ++ d :: (text ++ cs) := by simp
    have hgap : (p.afterAll (c :: blank)).afterAll gap = p.afterAll (c :: (blank ++ gap)) := by
      rw [← Position.afterAll_append, List.cons_append]
    rw [hcs]
    rw [hgap] at tail ⊢
    refine .cons (.cons ?_ skips) piece' tail
    rw [← piece]
    simp

/-- A text that has tokens is cut into them, up to a gap. -/
theorem lexFrom_cut {found tokens : List Token} (h : Lox.lexFrom found p cs = .ok tokens) :
    ∃ text gap ts eof, cs = text ++ gap ∧ Cut gap p text ts ∧ Skips [] gap ∧
      tokens = found.reverse ++ ts ++ [eof] := by
  fun_induction Lox.lexFrom found p cs with
  | case1 found p =>
    cases h
    exact ⟨[], [], [], _, rfl, .nil, .nil, by simp; rfl⟩
  | case2 => cases h
  | case3 found p c cs n text stop hpiece ih =>
    obtain ⟨more, gap, ts, eof, hmore, hcut, hgap, rfl⟩ := ih h
    obtain ⟨blank, rfl, rfl⟩ : ∃ blank, cs = blank ++ (more ++ gap) ∧ n = blank.length := by
      refine ⟨cs.take n, by rw [← hmore, List.take_append_drop], ?_⟩
      rw [List.length_take, Nat.min_eq_left ((munch_steady c).length_le hpiece)]
    have hstop : stop = p.afterAll (c :: blank) := by simp only [stop, text, List.take_left]
    rw [hstop] at hcut
    cases ts with
    | nil =>
      -- there are no tokens, so that all is a gap
      cases hcut
      exact ⟨[], c :: (blank ++ gap), [], eof, rfl, .nil, .cons (by simpa using hpiece) hgap, rfl⟩
    | cons t ts =>
      exact ⟨c :: (blank ++ more), gap, t :: ts, eof, by simp,
        hcut.blank_append (List.cons_ne_nil _ _) hpiece, hgap, rfl⟩
  | case4 found p c cs n text stop span kind payload hpiece ih =>
    obtain ⟨more, gap, ts, eof, hmore, hcut, hgap, rfl⟩ := ih h
    obtain ⟨word, rfl, rfl⟩ : ∃ word, cs = word ++ (more ++ gap) ∧ n = word.length := by
      refine ⟨cs.take n, by rw [← hmore, List.take_append_drop], ?_⟩
      rw [List.length_take, Nat.min_eq_left ((munch_steady c).length_le hpiece)]
    have htext : text = c :: word := by simp only [text, List.take_left]
    have hstop : stop = p.afterAll (c :: word) := by simp only [stop, htext]
    rw [hstop] at hcut
    refine ⟨c :: (word ++ more), gap, _, eof, by simp, .cons .nil hpiece hcut, hgap, ?_⟩
    simp [tokenAt, span, hstop, htext]

/-! ### Parts -/

/-- A text with tokens is a text with the first ones and a text with the others. -/
theorem Cut.split {ts' : List Token} (h : Cut rest p cs (ts ++ ts')) :
    ∃ cs₁ cs₂, cs = cs₁ ++ cs₂ ∧ Cut (cs₂ ++ rest) p cs₁ ts ∧
      Cut rest (p.afterAll cs₁) cs₂ ts' := by
  induction ts generalizing p cs with
  | nil => exact ⟨[], cs, rfl, .nil, h⟩
  | cons t ts ih =>
    cases h with
    | @cons _ c gap text cs kind payload _ skips piece tail =>
      obtain ⟨cs₁, cs₂, rfl, hcut₁, hcut₂⟩ := ih tail
      refine ⟨gap ++ c :: (text ++ cs₁), cs₂, by simp, .cons ?_ ?_ hcut₁, ?_⟩
      · simpa using skips
      · simpa using piece
      · simpa only [← Position.afterAll_append, List.append_assoc, List.cons_append] using hcut₂

/-- The gap before the first token is left out. -/
theorem Cut.strip (h : Cut rest p cs (t :: ts)) : ∃ gap text, cs = gap ++ text ∧
    t.span.start = p.offset + utf8Length gap ∧ Cut rest (p.afterAll gap) text (t :: ts) := by
  cases h with
  | @cons _ c gap text cs kind payload _ skips piece tail =>
    exact ⟨gap, c :: (text ++ cs), rfl, by simp [tokenAt], .cons .nil piece tail⟩

/-- The last token ends where the text does. -/
theorem Cut.stop_eq {u : Token} (h : Cut rest p cs ts) (hu : ts.getLast? = some u) :
    u.span.stop = p.offset + utf8Length cs := by
  induction h with
  | nil => cases hu
  | @cons p c gap text cs kind payload ts _ _ tail ih =>
    cases ts with
    | nil =>
      cases tail
      cases hu
      simp [tokenAt, Position.after, Nat.add_assoc]
    | cons t ts =>
      rw [List.getLast?_cons_cons] at hu
      rw [ih hu]
      simp [Position.after, Nat.add_assoc]

/-! ### Elsewhere -/

/-- A span that is moved on by some bytes. -/
def Span.shift (s : Span) (offset : Nat) : Span := ⟨s.start + offset, s.stop + offset⟩

/-- The second token is the first one, some bytes further on. -/
structure Token.Shifted (offset : Nat) (t t' : Token) : Prop where
  kind : t.kind = t'.kind
  lexeme : t.lexeme = t'.lexeme
  payload : t.payload = t'.payload
  span : t.span.shift offset = t'.span

theorem Token.Shifted.symbol {offset : Nat} {t t' : Token} (h : t.Shifted offset t') :
    t.symbol = t'.symbol := by
  unfold Token.symbol
  rw [h.kind, h.lexeme, h.payload]

theorem Skips.before {rest' gap cs : List Char} (h : Skips (cs ++ rest) gap) (hcs : cs ≠ [])
    (hrest : Closing rest') : Skips (cs ++ rest') gap := by
  induction h with
  | nil => exact .nil
  | @cons c blank gap piece _ ih =>
    have hpos := List.length_pos_iff.2 hcs
    have hpiece : munch c (blank ++ (gap ++ cs) ++ rest) = (.ok .blank, blank.length) := by
      simpa using piece
    have hbefore := (munch_steady c).before hpiece (by simp) hrest fun _ => .inl (by simp; omega)
    exact .cons (by simpa using hbefore) ih

/-- A text is cut in the same way elsewhere, and before something else that closes it. -/
theorem Cut.move {rest' : List Char} {q : Position} {offset : Nat} (h : Cut rest p cs ts)
    (hrest : Closing rest') (hq : q.offset + offset = p.offset) :
    ∃ ts', Cut rest' q cs ts' ∧ List.Forall₂ (Token.Shifted offset) ts' ts := by
  induction h generalizing q with
  | nil => exact ⟨[], .nil, .nil⟩
  | @cons p c gap text cs kind payload ts skips piece _ ih =>
    have hstop : ((q.afterAll gap).afterAll (c :: text)).offset + offset =
        ((p.afterAll gap).afterAll (c :: text)).offset := by
      simp only [Position.offset_afterAll]
      omega
    obtain ⟨ts', hcut, hts⟩ := ih hstop
    have hskips : Skips (c :: (text ++ cs) ++ rest) gap := by simpa using skips
    have hskips := hskips.before (List.cons_ne_nil _ _) hrest
    have hpiece : munch c (text ++ cs ++ rest) = (.ok (.token kind payload), text.length) := by
      simpa using piece
    have hpiece := (munch_steady c).before hpiece (by simp) hrest nofun
    refine ⟨_, .cons (by simpa using hskips) (by simpa using hpiece) hcut, .cons ?_ hts⟩
    refine ⟨rfl, rfl, rfl, ?_⟩
    simp only [tokenAt, Span.shift, Position.offset_afterAll, Span.mk.injEq]
    omega

/-! ### Excerpts -/

/-- **An excerpt of a source has the tokens that it had in the source.** The text from the start of
a token to the end of another is lexed to these tokens and those between them, counted from its own
start, if a newline or a semicolon follows it, or nothing. -/
theorem lex_excerpt {source : String} {before used after : List Token} {t u eof : Token}
    (h : lex source = .ok (before ++ used ++ after ++ [eof])) (ht : used.head? = some t)
    (hu : used.getLast? = some u) :
    ∃ text, (Span.mk t.span.start u.span.stop).Covers source text ∧
      ∀ rest, Closing rest → ∃ used', List.Forall₂ (Token.Shifted t.span.start) used' used ∧
        lexFrom [] .start (text.toList ++ rest) =
          lexFrom used'.reverse (Position.start.afterAll text.toList) rest := by
  obtain ⟨text, gap, ts, eof', hsource, hcut, -, htokens⟩ := lexFrom_cut h
  rw [List.reverse_nil, List.nil_append] at htokens
  obtain ⟨rfl, -⟩ := List.append_inj' htokens rfl
  obtain ⟨cs, cs₃, rfl, hcut, -⟩ := hcut.split
  obtain ⟨cs₁, cs₂, rfl, -, hcut⟩ := hcut.split
  obtain ⟨t, used, rfl⟩ : ∃ t used', used = t :: used' := by
    cases used with
    | nil => cases ht
    | cons t used => exact ⟨t, used, rfl⟩
  cases ht
  obtain ⟨gap₁, text, rfl, hstart, hcut⟩ := hcut.strip
  have hstop := hcut.stop_eq hu
  refine ⟨.ofList text, ?_, fun rest hrest => ?_⟩
  · have htext : source.toList = cs₁ ++ gap₁ ++ text ++ (cs₃ ++ gap) := by simp [hsource]
    refine Span.covers_of_toList htext ?_ ?_
    · simp [hstart, Position.start]
    · simp [hstop, Position.start, Nat.add_assoc]
  · have hoffset : Position.start.offset + t.span.start =
        ((Position.start.afterAll cs₁).afterAll gap₁).offset := by
      simp [hstart, Position.start]
    obtain ⟨used', hcut', hused'⟩ := hcut.move hrest hoffset
    refine ⟨used', hused', ?_⟩
    rw [String.toList_ofList, hcut'.lexFrom, List.append_nil]

end Lox
