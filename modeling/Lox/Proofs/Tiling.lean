import Lox.Proofs.Munch
import Lox.Proofs.SourceSpan

/-!
# Tokens tile their source

A source that has tokens is made of their texts and of gaps between them, and each token is the
longest one where it stands.

* `Tiles`: a text that is cut into gaps and tokens;
* `lexFrom_tiles`: lexing cuts a text in this way;
* `lex_tiled`.
-/

namespace Lox

/-- A text at an offset is cut into tokens, with a gap before each of them and one at the end. A gap
goes on as far as it can. -/
inductive Tiles : Nat → List Char → List Token → Prop
  | nil {offset : Nat} {gap : List Char} (blank : Gap [] gap) : Tiles offset gap []
  | cons {offset : Nat} {gap rest : List Char} {t : Token} {ts : List Token}
      (blank : Gap (t.lexeme.toList ++ rest) gap) (solid : ¬ StartsBlank (t.lexeme.toList ++ rest))
      (longest : t.kind.Longest t.lexeme.toList (t.lexeme.toList ++ rest))
      (start : t.span.start = offset + utf8Length gap)
      (stop : t.span.stop = t.span.start + utf8Length t.lexeme.toList)
      (tail : Tiles t.span.stop rest ts) : Tiles offset (gap ++ (t.lexeme.toList ++ rest)) (t :: ts)

namespace Tiles

variable {offset : Nat} {cs : List Char} {ts : List Token}

/-- A blank before a text makes its first gap longer. -/
theorem blank_append {blank : List Char} (hblank : Blank cs blank)
    (h : Tiles (offset + utf8Length blank) cs ts) : Tiles offset (blank ++ cs) ts := by
  cases h with
  | nil hgap => exact .nil (.cons (by rwa [List.append_nil]) hgap)
  | cons hgap solid longest start stop tail =>
    rw [← List.append_assoc]
    refine .cons (.cons hblank hgap) solid longest ?_ stop tail
    rw [start, utf8Length_append, Nat.add_assoc]

/-- A token before a text, without a gap. -/
theorem token_append {t : Token} {text : List Char} (htext : t.lexeme.toList = text)
    (solid : ¬ StartsBlank (text ++ cs)) (longest : t.kind.Longest text (text ++ cs))
    (start : t.span.start = offset) (stop : t.span.stop = offset + utf8Length text)
    (tail : Tiles t.span.stop cs ts) : Tiles offset (text ++ cs) (t :: ts) := by
  subst htext
  exact .cons .nil solid longest start (start ▸ stop) tail

/-- Each token stands in the text where its span says. -/
theorem exists_append (h : Tiles offset cs ts) : ∀ t ∈ ts, ∃ before after,
    cs = before ++ t.lexeme.toList ++ after ∧ t.span.start = offset + utf8Length before ∧
      t.span.stop = offset + utf8Length (before ++ t.lexeme.toList) ∧
      t.kind.Longest t.lexeme.toList (t.lexeme.toList ++ after) := by
  induction h with
  | nil => simp
  | @cons offset gap rest t ts _ _ longest start stop tail ih =>
    intro u hu
    rcases List.mem_cons.1 hu with rfl | hu
    · refine ⟨gap, rest, by rw [List.append_assoc], start, ?_, longest⟩
      rw [stop, start, utf8Length_append, Nat.add_assoc]
    · obtain ⟨before, after, rfl, hstart, hstop, hlongest⟩ := ih u hu
      refine ⟨gap ++ t.lexeme.toList ++ before, after, by simp, ?_, ?_, hlongest⟩
      · simp only [hstart, stop, start, utf8Length_append]
        omega
      · simp only [hstop, stop, start, utf8Length_append]
        omega

/-- Each token stops before the next one starts. -/
theorem pairwise (h : Tiles offset cs ts) :
    ts.Pairwise fun t u => t.span.stop ≤ u.span.start := by
  induction h with
  | nil => exact .nil
  | cons _ _ _ _ _ tail ih =>
    refine .cons (fun u hu => ?_) ih
    obtain ⟨before, -, -, hstart, -⟩ := tail.exists_append u hu
    omega

end Tiles

/-- Lexing cuts what is left of a text into tokens, and puts an end marker after it. -/
theorem lexFrom_tiles {found tokens : List Token} {p : Position} {cs : List Char}
    (h : lexFrom found p cs = .ok tokens) :
    ∃ ts line, tokens = found.reverse ++ ts ++ [.endOfInput line (p.offset + utf8Length cs)] ∧
      Tiles p.offset cs ts := by
  fun_induction lexFrom found p cs with
  | case1 found p =>
    cases h
    exact ⟨[], p.line, by simp, .nil .nil⟩
  | case2 => cases h
  | case3 found p c cs n text stop hpiece ih =>
    obtain ⟨ts, line, rfl, htiles⟩ := ih h
    obtain ⟨-, hblank⟩ := munch_eq_blank hpiece
    have hcs : c :: cs = text ++ cs.drop n := by simp [text]
    have hstop : stop.offset = p.offset + utf8Length text := Position.offset_afterAll p text
    rw [hstop] at htiles
    refine ⟨ts, line, ?_, hcs ▸ htiles.blank_append hblank⟩
    rw [hstop, hcs, utf8Length_append, Nat.add_assoc]
  | case4 found p c cs n text stop span kind payload hpiece ih =>
    obtain ⟨ts, line, rfl, htiles⟩ := ih h
    obtain ⟨-, hlongest⟩ := munch_eq_token hpiece
    have hcs : c :: cs = text ++ cs.drop n := by simp [text]
    have hstop : stop.offset = p.offset + utf8Length text := Position.offset_afterAll p text
    refine ⟨⟨kind, .ofList text, payload, p.line, span⟩ :: ts, line, ?_, ?_⟩
    · rw [hstop, hcs, utf8Length_append, Nat.add_assoc]
      simp
    · have hsolid := not_startsBlank_of_munch hpiece
      rw [hcs] at hlongest hsolid ⊢
      exact Tiles.token_append (String.toList_ofList ..) hsolid hlongest rfl hstop htiles

/-- **Tokens and gaps tile a source.** When a source has tokens, the last of them is an end marker
at its length, and no other one is. The source is the texts of the other tokens, in order, with gaps
before, between and after them: white space, comments up to the end of a line, and closed comments.
Where a token stands no gap could go on, and it is the longest text that is a token of any kind, and
has the only kind of that text. Its span covers its text, has a byte at least, and ends before the
next one starts. -/
theorem lex_tiled {source : String} {tokens : List Token} (h : lex source = .ok tokens) :
    ∃ ts line, tokens = ts ++ [.endOfInput line source.utf8ByteSize] ∧ Tiles 0 source.toList ts ∧
      ts.Pairwise (fun t u => t.span.stop ≤ u.span.start) ∧
      ∀ t ∈ ts, t.kind ≠ .endOfInput ∧ t.span.start < t.span.stop ∧
        t.span.Covers source t.lexeme ∧
        ∀ kind : Kind, kind.Forms t.lexeme.toList ↔ kind = t.kind := by
  obtain ⟨ts, line, rfl, htiles⟩ := lexFrom_tiles h
  refine ⟨ts, line, ?_, htiles, htiles.pairwise, fun t ht => ?_⟩
  · simp [Position.start, utf8Length_toList]
  · obtain ⟨before, after, hsource, hstart, hstop, hlongest⟩ := htiles.exists_append t ht
    have hforms := hlongest.forms
    rw [Position.start, Nat.zero_add] at hstart hstop
    refine ⟨hforms.ne_endOfInput, ?_, ?_, fun kind => ⟨hforms.unique, ?_⟩⟩
    · have := utf8Length_pos hforms.ne_nil
      rw [hstart, hstop, utf8Length_append]
      omega
    · have := Span.covers_of_toList hsource hstart.symm hstop.symm
      rwa [String.ofList_toList] at this
    · rintro rfl
      exact hforms

/-- Signs that could be cut in two ways, a comment that holds a quote, a string that holds a
comment, characters of several bytes, and a comment up to the end. -/
def mixedSource : String := "a<<=1.5.x /*\"**/ \"// é\"\n!== classy class// end"

theorem lex_tiled_mixedSource : ∃ tokens, lex mixedSource = .ok tokens ∧
    (tokens.map (·.kind)) = [.identifier, .shiftLeft, .equal, .float, .dot, .identifier, .string,
      .bangEqual, .equal, .identifier, .classWord, .endOfInput] ∧
    ∃ ts line, tokens = ts ++ [.endOfInput line mixedSource.utf8ByteSize] ∧
      Tiles 0 mixedSource.toList ts ∧
      ts.Pairwise (fun t u => t.span.stop ≤ u.span.start) ∧
      ∀ t ∈ ts, t.kind ≠ .endOfInput ∧ t.span.start < t.span.stop ∧
        t.span.Covers mixedSource t.lexeme ∧
        ∀ kind : Kind, kind.Forms t.lexeme.toList ↔ kind = t.kind := by
  have hkinds : (lex mixedSource).toOption.map (·.map (·.kind)) = some [.identifier, .shiftLeft,
      .equal, .float, .dot, .identifier, .string, .bangEqual, .equal, .identifier, .classWord,
      .endOfInput] := by decide +kernel
  cases h : lex mixedSource with
  | error e =>
    rw [h] at hkinds
    cases hkinds
  | ok tokens =>
    rw [h] at hkinds
    exact ⟨tokens, rfl, Option.some.inj hkinds, lex_tiled h⟩

end Lox
