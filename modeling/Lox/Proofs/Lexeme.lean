import Lox.Token.Lexer

/-!
# Token texts and gaps

What a source is made of, said without the lexer: which texts are tokens, and what may stand
between two of them.

* `Kind.Forms`: the texts of the tokens of a kind;
* `Kind.payload?`: the value that such a text writes;
* `Kind.Longest`: the longest text at the head of a source that is a token;
* `Blank`, `Gap`: white space and comments;
* `Forms.shape`: the texts of tokens by their first characters.
-/

namespace Lox

/-! ### Token texts -/

/-- The kinds of operators and punctuation. Their name is their text. -/
def Kind.signs : List Kind :=
  [leftParen, rightParen, leftBrace, rightBrace, comma, dot, semicolon, minus, plus, slash, star,
    ampersand, pipe, caret, tilde, bang, bangEqual, equal, equalEqual, greater, greaterEqual,
    shiftRight, less, lessEqual, shiftLeft]

/-- The texts of the tokens of a kind. A word is reserved, or it is an identifier. -/
inductive Kind.Forms : Kind → List Char → Prop
  | sign {kind : Kind} (h : kind ∈ signs) : Forms kind kind.name.toList
  | keyword {kind : Kind} (h : kind ∈ keywords) : Forms kind kind.name.toList
  | identifier {c : Char} {cs : List Char} (start : isWordStart c) (more : ∀ d ∈ cs, isWordChar d)
      (free : ∀ kind ∈ keywords, kind.name.toList ≠ c :: cs) : Forms .identifier (c :: cs)
  | integer {digits : List Char} (nonempty : digits ≠ []) (all : ∀ d ∈ digits, d.isDigit) :
      Forms .integer digits
  | float {whole fraction : List Char} (nonempty : whole ≠ []) (all : ∀ d ∈ whole, d.isDigit)
      (nonempty' : fraction ≠ []) (all' : ∀ d ∈ fraction, d.isDigit) :
      Forms .float (whole ++ '.' :: fraction)
  | string {contents : List Char} (h : '"' ∉ contents) : Forms .string ('"' :: contents ++ ['"'])

/-- The number that two runs of digits with a point between them write. -/
def pointed (whole fraction : List Char) : Float :=
  .ofScientific (digitsValue 0 (whole ++ fraction)) true fraction.length

/-- The value that the text of a token of a kind writes. -/
def Kind.payload? (kind : Kind) (text : List Char) : Option Payload :=
  match kind with
  | .string => some (.str (.ofList text.tail.dropLast))
  | .integer => some (.int (.ofNat (digitsValue 0 text)))
  | .float => some (.float (pointed (text.takeWhile Char.isDigit)
      (text.drop ((text.takeWhile Char.isDigit).length + 1))))
  | _ => none

theorem Kind.payload?_eq_none {kind : Kind} (h : kind ∈ signs ∨ kind ∈ keywords)
    (text : List Char) : kind.payload? text = none := by
  cases kind with
  | string | integer | float => exact absurd h (by decide)
  | _ => rfl

/-- The digits up to the point are the whole part. -/
theorem Kind.payload?_float {whole : List Char} (h : ∀ d ∈ whole, d.isDigit)
    (fraction : List Char) : Kind.payload? .float (whole ++ '.' :: fraction) =
      some (.float (pointed whole fraction)) := by
  have htake : (whole ++ '.' :: fraction).takeWhile Char.isDigit = whole := by
    rw [List.takeWhile_append_of_pos h]
    simp
  rw [payload?, htake, ← List.drop_drop, List.drop_left]
  rfl

/-- A text at the head of a source is a token of a kind, and no longer one is a token of any
kind. -/
structure Kind.Longest (kind : Kind) (text source : List Char) : Prop where
  forms : kind.Forms text
  starts : text <+: source
  longest : ∀ kind' text', Forms kind' text' → text' <+: source → text'.length ≤ text.length

/-! ### Gaps -/

/-- The characters that are white space between tokens. -/
def spaces : List Char := [' ', '\t', '\r', '\n']

/-- What may stand before `rest` without being a token: a white space character, a comment up to
the end of its line, or a comment between `/*` and the next `*/`. -/
inductive Blank (rest : List Char) : List Char → Prop
  | space {c : Char} (h : c ∈ spaces) : Blank rest [c]
  | line {body : List Char} (h : '\n' ∉ body) (stop : ∀ c ∈ rest.head?, c = '\n') :
      Blank rest ('/' :: '/' :: body)
  | block {body : List Char} (h : ¬ ['*', '/'] <:+: body) :
      Blank rest ('/' :: '*' :: (body ++ ['*', '/']))

/-- A text of any number of blanks before `rest`. -/
inductive Gap (rest : List Char) : List Char → Prop
  | nil : Gap rest []
  | cons {blank cs : List Char} (head : Blank (cs ++ rest) blank) (tail : Gap rest cs) :
      Gap rest (blank ++ cs)

/-- A blank stands at the head of a text. -/
def StartsBlank (cs : List Char) : Prop := ∃ blank rest, cs = blank ++ rest ∧ Blank rest blank

theorem Blank.ne_nil {rest blank : List Char} (h : Blank rest blank) : blank ≠ [] := by
  cases h <;> simp

/-! ### First characters -/

/-- The signs of two characters. -/
def signPairs : List (Char × Char) :=
  [('!', '='), ('=', '='), ('>', '='), ('>', '>'), ('<', '='), ('<', '<')]

/-- A text that may be a token, by its first character. -/
inductive Shape (c : Char) : List Char → Prop
  | sign {kind : Kind} (h : kind ∈ Kind.signs) (name : kind.name.toList = [c]) : Shape c []
  | pair {d : Char} (h : (c, d) ∈ signPairs) : Shape c [d]
  | word {cs : List Char} (start : isWordStart c) (more : ∀ d ∈ cs, isWordChar d) : Shape c cs
  | integer {cs : List Char} (start : c.isDigit) (all : ∀ d ∈ cs, d.isDigit) : Shape c cs
  | float {cs fraction : List Char} (start : c.isDigit) (all : ∀ d ∈ cs, d.isDigit)
      (nonempty : fraction ≠ []) (all' : ∀ d ∈ fraction, d.isDigit) :
      Shape c (cs ++ '.' :: fraction)
  | string {contents : List Char} (quote : c = '"') (h : '"' ∉ contents) :
      Shape c (contents ++ ['"'])

/-- A sign has one character or two. -/
theorem shape_of_sign {kind : Kind} {c : Char} {cs : List Char} (h : kind ∈ Kind.signs)
    (hname : kind.name.toList = c :: cs) : Shape c cs := by
  have hall : ∀ kind ∈ Kind.signs, kind.name.toList.tail = [] ∨
      ∃ p ∈ signPairs, kind.name.toList = [p.1, p.2] := by decide
  rcases hall kind h with htail | ⟨⟨x, y⟩, hpair, hxy⟩
  · rw [hname, List.tail_cons] at htail
    subst htail
    exact .sign h hname
  · rw [hname] at hxy
    cases hxy
    exact .pair hpair

/-- Reserved words are words. -/
theorem word_of_keyword {kind : Kind} {c : Char} {cs : List Char} (h : kind ∈ Kind.keywords)
    (hname : kind.name.toList = c :: cs) : isWordStart c ∧ ∀ d ∈ cs, isWordChar d := by
  have hall : ∀ kind ∈ Kind.keywords, kind.name.toList.head?.all isWordStart ∧
      kind.name.toList.tail.all isWordChar := by decide
  obtain ⟨hstart, hmore⟩ := hall kind h
  rw [hname] at hstart hmore
  exact ⟨hstart, List.all_eq_true.1 hmore⟩

/-- Every token has a first character, which tells what may follow it. -/
theorem Kind.Forms.shape {kind : Kind} {c : Char} {cs : List Char} (h : kind.Forms (c :: cs)) :
    Shape c cs := by
  generalize htext : c :: cs = text at h
  cases h with
  | sign h => exact shape_of_sign h htext.symm
  | keyword h =>
    obtain ⟨start, more⟩ := word_of_keyword h htext.symm
    exact .word start more
  | identifier start more free =>
    cases htext
    exact .word start more
  | integer nonempty all =>
    subst htext
    exact .integer (all c (by simp)) fun d hd => all d (by simp [hd])
  | @float whole fraction nonempty all nonempty' all' =>
    obtain ⟨d, whole, rfl⟩ := List.exists_cons_of_ne_nil nonempty
    cases htext
    exact .float (all c (by simp)) (fun d hd => all d (by simp [hd])) nonempty' all'
  | string h =>
    cases htext
    exact .string rfl h

theorem Kind.Forms.ne_nil {kind : Kind} {text : List Char} (h : kind.Forms text) : text ≠ [] := by
  rintro rfl
  generalize htext : [] = text at h
  cases h with
  | sign h =>
    have hall : ∀ kind ∈ signs, kind.name.toList ≠ [] := by decide
    exact hall _ h htext.symm
  | keyword h =>
    have hall : ∀ kind ∈ keywords, kind.name.toList ≠ [] := by decide
    exact hall _ h htext.symm
  | identifier => cases htext
  | integer nonempty => exact nonempty htext.symm
  | float => simp at htext
  | string => cases htext

theorem Kind.Forms.ne_endOfInput {kind : Kind} {text : List Char} (h : kind.Forms text) :
    kind ≠ .endOfInput := by
  cases h with
  | sign h =>
    rintro rfl
    exact absurd h (by decide)
  | keyword h =>
    rintro rfl
    exact absurd h (by decide)
  | _ => decide

theorem not_isDigit_of_isWordStart {c : Char} (h : isWordStart c) : ¬ c.isDigit := by
  intro hd
  unfold isWordStart Char.isAlpha Char.isUpper Char.isLower at h
  unfold Char.isDigit at hd
  simp only [Bool.or_eq_true, Bool.and_eq_true, decide_eq_true_eq, beq_iff_eq,
    UInt32.le_iff_toNat_le, ge_iff_le] at h hd
  have hA : 'A'.val.toNat = 65 := rfl
  have ha : 'a'.val.toNat = 97 := rfl
  have h9 : '9'.val.toNat = 57 := rfl
  rcases h with (h | h) | rfl
  · omega
  · omega
  · revert hd
    decide

namespace Shape

variable {c : Char} {cs : List Char}

/-- A character that starts neither a word nor a number nor a string starts a sign. -/
theorem of_sign (h : Shape c cs) (hword : ¬ isWordStart c) (hdigit : ¬ c.isDigit)
    (hquote : c ≠ '"') : cs = [] ∨ ∃ d, cs = [d] ∧ (c, d) ∈ signPairs := by
  cases h with
  | sign => exact .inl rfl
  | pair h => exact .inr ⟨_, rfl, h⟩
  | word start => exact absurd start hword
  | integer start => exact absurd start hdigit
  | float start => exact absurd start hdigit
  | string quote => exact absurd quote hquote

theorem of_word (h : Shape c cs) (start : isWordStart c) : ∀ d ∈ cs, isWordChar d := by
  have hdigit := not_isDigit_of_isWordStart start
  cases h with
  | sign => simp
  | pair h =>
    have hall : ∀ p ∈ signPairs, ¬ isWordStart p.1 := by decide
    exact absurd start (hall _ h)
  | word _ more => exact more
  | integer start' => exact absurd start' hdigit
  | float start' => exact absurd start' hdigit
  | string quote =>
    subst quote
    exact absurd start (by decide)

theorem of_digit (h : Shape c cs) (start : c.isDigit) : (∀ d ∈ cs, d.isDigit) ∨
    ∃ ds fraction, cs = ds ++ '.' :: fraction ∧ (∀ d ∈ ds, d.isDigit) ∧ fraction ≠ [] ∧
      ∀ d ∈ fraction, d.isDigit := by
  cases h with
  | sign => simp
  | pair h =>
    have hall : ∀ p ∈ signPairs, ¬ p.1.isDigit := by decide
    exact absurd start (hall _ h)
  | word start' => exact absurd start (not_isDigit_of_isWordStart start')
  | integer _ all => exact .inl all
  | float _ all nonempty all' => exact .inr ⟨_, _, rfl, all, nonempty, all'⟩
  | string quote =>
    subst quote
    exact absurd start (by decide)

theorem of_quote (h : Shape '"' cs) : ∃ contents, cs = contents ++ ['"'] ∧ '"' ∉ contents := by
  cases h with
  | sign h name =>
    have hall : ∀ kind ∈ Kind.signs, kind.name.toList ≠ ['"'] := by decide
    exact absurd name (hall _ h)
  | pair h =>
    have hall : ∀ p ∈ signPairs, p.1 ≠ '"' := by decide
    exact absurd rfl (hall _ h)
  | word start => exact absurd start (by decide)
  | integer start => exact absurd start (by decide)
  | float start => exact absurd start (by decide)
  | string _ h => exact ⟨_, rfl, h⟩

end Shape

end Lox
