import Mathlib.Data.Nat.Digits.Defs
import Lox.Proofs.FirstFault
import Lox.Proofs.Tiling

/-!
# The values of literals

The token of a number or a string carries the value that its text writes, and no other token
carries one. Whether digits are an integer literal depends on the number that they write, and not on
how many they are.

* `decimalValue`: the number that digits write, with `digitsValue_eq` for a reader from left to
  right and `decimalValue_decimal` for the digits of a number;
* `Forms.digits`, `Forms.quoted`: the texts of integers and strings;
* `munch_value`, `lexFrom_valued`: what is carried is what is written;
* `lexFrom_digits`: what a lexer does with digits, wherever they stand;
* `Token.Exact`, `literals_exact`.
-/

namespace Lox

/-! ### Digits -/

/-- The number that decimal digits write, the first of them being the most significant. -/
def decimalValue (digits : List Char) : Nat := Nat.ofDigits 10 (digits.reverse.map digitValue)

/-- The first digit counts as many times as the power of ten for the digits behind it says. -/
theorem decimalValue_cons (d : Char) (ds : List Char) :
    decimalValue (d :: ds) = digitValue d * 10 ^ ds.length + decimalValue ds := by
  rw [decimalValue, List.reverse_cons, List.map_append, Nat.ofDigits_append, List.length_map,
    List.length_reverse, List.map_singleton, Nat.ofDigits_singleton, Nat.mul_comm, Nat.add_comm]
  rfl

/-- Digits that are read after a number push it to the left by as many places as they are. -/
theorem digitsValue_eq (n : Nat) (ds : List Char) :
    digitsValue n ds = n * 10 ^ ds.length + decimalValue ds := by
  induction ds generalizing n with
  | nil => simp [digitsValue, decimalValue]
  | cons d ds ih =>
    calc digitsValue n (d :: ds) = digitsValue (10 * n + digitValue d) ds := rfl
      _ = (10 * n + digitValue d) * 10 ^ ds.length + decimalValue ds := ih _
      _ = n * 10 ^ (d :: ds).length + decimalValue (d :: ds) := by
        rw [decimalValue_cons, List.length_cons]
        ring

theorem digitsValue_zero (ds : List Char) : digitsValue 0 ds = decimalValue ds := by
  rw [digitsValue_eq, Nat.zero_mul, Nat.zero_add]

/-- The digits of a number write it, whatever number of zeros is in front. -/
theorem decimalValue_decimal (zeros n : Nat) :
    decimalValue (List.replicate zeros '0' ++ Nat.toDigits 10 n) = n := by
  rw [← digitsValue_zero]
  show Nat.ofDigitChars 10 (List.replicate zeros '0' ++ Nat.toDigits 10 n) 0 = n
  rw [Nat.ofDigitChars_append, Nat.ofDigitChars_replicate_zero, Nat.mul_zero,
    Nat.ofDigitChars_toDigits (by decide) (by decide)]

theorem isDigit_of_mem_decimal (zeros n : Nat) :
    ∀ d ∈ List.replicate zeros '0' ++ Nat.toDigits 10 n, d.isDigit := by
  intro d hd
  rcases List.mem_append.1 hd with hd | hd
  · rw [List.eq_of_mem_replicate hd]
    decide
  · exact Nat.isDigit_of_mem_toDigits (by decide) (by decide) hd

/-! ### The texts of numbers and strings -/

namespace Kind.Forms

variable {text : List Char}

theorem digits (h : Kind.Forms .integer text) : text ≠ [] ∧ ∀ d ∈ text, d.isDigit := by
  generalize hkind : Kind.integer = kind at h
  cases h with
  | sign h | keyword h =>
    subst hkind
    exact absurd h (by decide)
  | integer nonempty all => exact ⟨nonempty, all⟩
  | _ => cases hkind

theorem quoted (h : Kind.Forms .string text) :
    ∃ contents, text = '"' :: contents ++ ['"'] ∧ '"' ∉ contents := by
  generalize hkind : Kind.string = kind at h
  cases h with
  | sign h | keyword h =>
    subst hkind
    exact absurd h (by decide)
  | string h => exact ⟨_, rfl, h⟩
  | _ => cases hkind

end Kind.Forms

/-! ### What tokens carry -/

/-- A token that is found carries what its text writes, and an integer is not too large. -/
theorem munch_value {c : Char} {cs : List Char} {kind : Kind} {payload : Option Payload} {n : Nat}
    (h : munch c cs = (.ok (.token kind payload), n)) :
    payload = kind.payload? (c :: cs.take n) ∧
      (kind = .integer → digitsValue 0 (c :: cs.take n) ≤ maxInteger) := by
  obtain ⟨hn, hlongest⟩ := munch_eq_token h
  have hlength : (cs.take n).length = n := List.length_take_of_le hn
  -- the same token is found if nothing follows it, where its text decides
  have halone : munch c (cs.take n) = (.ok (.token kind payload), n) := by
    rw [← List.take_append_drop n cs] at h
    rw [← List.append_nil (cs.take n)]
    exact (munch_steady c).before h (by omega) (by simp [Closing]) fun hblank => by cases hblank
  have hfits : kind = .integer → digitsValue 0 (c :: cs.take n) ≤ maxInteger := by
    rintro rfl
    by_contra hlarge
    have hstands : LexFault.Stands .integerTooLarge (c :: cs.take n) [] :=
      .integerTooLarge (by simp) hlongest.forms.digits.2 (by simp) (by simp [StartsFraction])
        (Nat.lt_of_not_le hlarge)
    have hfault := munch_fault hstands
    rw [List.append_nil, halone] at hfault
    cases hfault
  have hrest : ∀ d ∈ ([] : List Char).head?, d ∈ spaces := by simp
  have hfound := munch_forms hlongest.forms hfits hrest
  rw [List.append_nil, halone] at hfound
  simp only [Prod.mk.injEq, Except.ok.injEq, Piece.token.injEq, true_and] at hfound
  exact ⟨hfound.1, hfits⟩

/-- A token that carries what its text writes. -/
structure Token.Valued (t : Token) : Prop where
  payload : t.payload = t.kind.payload? t.lexeme.toList
  fits : t.kind = .integer → decimalValue t.lexeme.toList ≤ maxInteger

theorem lexFrom_valued {found tokens : List Token} {p : Position} {cs : List Char}
    (hfound : ∀ t ∈ found, t.Valued) (h : lexFrom found p cs = .ok tokens) :
    ∀ t ∈ tokens, t.Valued := by
  fun_induction lexFrom found p cs with
  | case1 found p =>
    cases h
    intro t ht
    rcases List.mem_cons.1 (List.mem_reverse.1 ht) with rfl | ht
    · exact ⟨rfl, fun hkind => by cases hkind⟩
    · exact hfound t ht
  | case2 => cases h
  | case3 found p c cs n text stop hpiece ih => exact ih hfound h
  | case4 found p c cs n text stop span kind payload hpiece ih =>
    refine ih (List.forall_mem_cons.2 ⟨?_, hfound⟩) h
    obtain ⟨hpayload, hfits⟩ := munch_value hpiece
    rw [digitsValue_zero] at hfits
    exact ⟨by rwa [String.toList_ofList], by rwa [String.toList_ofList]⟩

/-! ### Digits in a source -/

/-- The token of digits that stand at a position. -/
def Token.integerAt (p : Position) (digits : List Char) : Token :=
  ⟨.integer, .ofList digits, some (.int (.ofNat (decimalValue digits))), p.line,
    ⟨p.offset, (p.afterAll digits).offset⟩⟩

/-- Wherever digits stand which neither a digit nor a fraction follows, they are an integer if the
number that they write is not too large, and a fault otherwise. -/
theorem lexFrom_digits (found : List Token) (p : Position) {digits rest : List Char}
    (nonempty : digits ≠ []) (all : ∀ d ∈ digits, d.isDigit)
    (stop : ∀ d ∈ rest.head?, d.isDigit = false) (hpoint : ¬ StartsFraction rest) :
    lexFrom found p (digits ++ rest) =
      if decimalValue digits ≤ maxInteger then
        lexFrom (.integerAt p digits :: found) (p.afterAll digits) rest
      else .error (LexFault.integerTooLarge.errorAt p digits) := by
  split
  · next hfits =>
    obtain ⟨c, cs, rfl⟩ := List.exists_cons_of_ne_nil nonempty
    have hpoint : ∀ d more, rest = '.' :: d :: more → ¬ d.isDigit :=
      fun d more hrest hd => hpoint ⟨d, more, hrest, hd⟩
    rw [List.cons_append, lexFrom, munch_integer all stop hpoint, munchNumber.munchInteger,
      digitsValue_zero]
    simp only [if_pos hfits, List.take_left, List.drop_left]
    rfl
  · next hlarge =>
    rw [← digitsValue_zero] at hlarge
    have hexceeds := Nat.lt_of_not_le hlarge
    exact lexFrom_fault (.integerTooLarge nonempty all stop hpoint hexceeds) found p

/-- Digits alone. -/
theorem lex_digits {digits : List Char} (nonempty : digits ≠ []) (all : ∀ d ∈ digits, d.isDigit) :
    lex (.ofList digits) =
      if decimalValue digits ≤ maxInteger then
        .ok [.integerAt .start digits, (Position.start.afterAll digits).mark]
      else .error (LexFault.integerTooLarge.errorAt .start digits) := by
  have hstop : ∀ d ∈ ([] : List Char).head?, d.isDigit = false := by simp
  have hpoint : ¬ StartsFraction [] := by simp [StartsFraction]
  have hdigits := lexFrom_digits [] .start nonempty all hstop hpoint
  rw [List.append_nil, lexFrom] at hdigits
  rw [lex, String.toList_ofList, hdigits]
  rfl

/-- A quoted text alone. -/
theorem lex_quoted {contents : List Char} (h : '"' ∉ contents) :
    ∃ t line stop, lex (.ofList ('"' :: contents ++ ['"'])) = .ok [t, .endOfInput line stop] ∧
      t.kind = .string ∧ t.payload = some (.str (.ofList contents)) := by
  let l : Lexeme := ⟨.string, _, .string h, by simp⟩
  have hlex : lex (.ofList l.text) =
      .ok [l.token .start, (Position.start.afterAll l.text).mark] := by
    rw [lex, String.toList_ofList]
    exact lexFrom_writing [] .start (.last l)
  exact ⟨_, _, _, hlex, rfl, by simp [l, Lexeme.token, Kind.payload?]⟩

/-! ### The theorem -/

/-- A token of a source whose literal is exact: an integer is a row of digits and carries the number
that they write, a string carries what stands between its quotes, a float carries a number, and no
other token carries anything. -/
structure Token.Exact (source : String) (t : Token) : Prop where
  integer : t.kind = .integer → t.lexeme ≠ "" ∧ (∀ d ∈ t.lexeme.toList, d.isDigit) ∧
    ∃ n : Int64, t.payload = some (.int n) ∧ n.toInt = decimalValue t.lexeme.toList ∧
      0 ≤ n.toInt ∧ n.toInt ≤ 2 ^ 63 - 1
  string : t.kind = .string → ∃ contents, t.payload = some (.str contents) ∧
    '"' ∉ contents.toList ∧ t.lexeme = "\"" ++ contents ++ "\"" ∧ t.span.Covers source t.lexeme ∧
    (Span.mk (t.span.start + 1) (t.span.stop - 1)).Covers source contents
  float : t.kind = .float → ∃ x, t.payload = some (.float x)
  other : t.kind ≠ .integer → t.kind ≠ .string → t.kind ≠ .float → t.payload = none

namespace Token.Exact

variable {source : String} {t : Token}

/-- The end marker carries nothing. -/
theorem of_isEnd (hkind : t.kind = .endOfInput) (h : t.Valued) : t.Exact source where
  integer hk := by rw [hkind] at hk; cases hk
  string hk := by rw [hkind] at hk; cases hk
  float hk := by rw [hkind] at hk; cases hk
  other _ _ _ := by rw [h.payload, hkind]; rfl

/-- A token whose text stands in the source. -/
theorem of_forms {before after : List Char} (h : t.Valued) (hforms : t.kind.Forms t.lexeme.toList)
    (hsource : source.toList = before ++ t.lexeme.toList ++ after)
    (hstart : t.span.start = utf8Length before)
    (hstop : t.span.stop = utf8Length (before ++ t.lexeme.toList)) : t.Exact source where
  integer hk := by
    rw [hk] at hforms
    obtain ⟨nonempty, all⟩ := hforms.digits
    have hlt : decimalValue t.lexeme.toList < 2 ^ 63 := Nat.lt_of_le_pred (by decide) (h.fits hk)
    refine ⟨fun hempty => nonempty (by simp [hempty]), all,
      .ofNat (decimalValue t.lexeme.toList), ?_, Int64.toInt_ofNat_of_lt hlt, ?_, ?_⟩
    · rw [h.payload, hk, Kind.payload?, digitsValue_zero]
    · rw [Int64.toInt_ofNat_of_lt hlt]
      omega
    · rw [Int64.toInt_ofNat_of_lt hlt]
      omega
  string hk := by
    rw [hk] at hforms
    obtain ⟨contents, htext, hquote⟩ := hforms.quoted
    have hlexeme : t.lexeme = "\"" ++ .ofList contents ++ "\"" := by
      rw [← String.toList_inj, htext]
      simp
    refine ⟨.ofList contents, ?_, by rwa [String.toList_ofList], hlexeme, ?_, ?_⟩
    · rw [h.payload, hk, htext]
      simp [Kind.payload?]
    · rw [← t.lexeme.ofList_toList]
      exact Span.covers_of_toList hsource hstart.symm hstop.symm
    · -- the quotes belong to what is before and after the contents
      have hinner : source.toList = (before ++ ['"']) ++ contents ++ ('"' :: after) := by
        rw [hsource, htext]
        simp
      have hquoteSize : '"'.utf8Size = 1 := rfl
      rw [htext] at hstop
      refine Span.covers_of_toList hinner ?_ ?_
      · simp [hstart, hquoteSize]
      · simp only [hstop, List.cons_append, utf8Length_append, utf8Length_cons, utf8Length_nil,
          hquoteSize]
        omega
  float hk := ⟨_, by rw [h.payload, hk]; rfl⟩
  other hi hs hf := by
    rw [h.payload]
    unfold Kind.payload?
    split <;> simp_all

end Token.Exact

/-- **Literals are exact.** In a source that has tokens, every integer token is a row of digits and
carries the number that they write, which lies between 0 and `2 ^ 63 - 1`; every string token
carries the text between its quotes, whatever characters it is made of; and no token but these and
floats carries a value. Wherever digits stand which neither a digit nor a fraction follows, they
are read as the integer that they write if that is at most `2 ^ 63 - 1`, and are too large
otherwise. So the decimal text of each number below `2 ^ 63`, with any number of zeros in front, is
read as this number alone. -/
theorem literals_exact :
    (∀ source tokens, lex source = .ok tokens → ∀ t ∈ tokens, t.Exact source) ∧
    (∀ (found : List Token) (p : Position) (digits rest : List Char), digits ≠ [] →
      (∀ d ∈ digits, d.isDigit) → (∀ d ∈ rest.head?, d.isDigit = false) → ¬ StartsFraction rest →
      lexFrom found p (digits ++ rest) =
        if decimalValue digits ≤ 2 ^ 63 - 1 then
          lexFrom (.integerAt p digits :: found) (p.afterAll digits) rest
        else .error (LexFault.integerTooLarge.errorAt p digits)) ∧
    (∀ digits : List Char, digits ≠ [] → (∀ d ∈ digits, d.isDigit) →
      ((∃ tokens, lex (.ofList digits) = .ok tokens) ↔ decimalValue digits ≤ 2 ^ 63 - 1)) ∧
    (∀ contents : String, '"' ∉ contents.toList → ∃ t line stop,
      lex ("\"" ++ contents ++ "\"") = .ok [t, .endOfInput line stop] ∧ t.kind = .string ∧
        t.payload = some (.str contents)) ∧
    ∀ zeros n : Nat, n < 2 ^ 63 → ∃ t line stop,
      lex (.ofList (List.replicate zeros '0') ++ toString n) = .ok [t, .endOfInput line stop] ∧
        t.kind = .integer ∧ ∃ value : Int64, t.payload = some (.int value) ∧ value.toInt = n := by
  refine ⟨fun source tokens h t ht => ?_, fun found p digits rest => lexFrom_digits found p,
    fun digits nonempty all => ?_, fun contents h => ?_, fun zeros n hn => ?_⟩
  · have hvalued := lexFrom_valued (by simp) h
    obtain ⟨ts, line, rfl, htiles⟩ := lexFrom_tiles h
    rcases List.mem_append.1 ht with hmem | hmem
    · obtain ⟨before, after, hsource, hstart, hstop, hlongest⟩ := htiles.exists_append t hmem
      rw [Position.start, Nat.zero_add] at hstart hstop
      exact .of_forms (hvalued t ht) hlongest.forms hsource hstart hstop
    · obtain rfl := List.mem_singleton.1 hmem
      exact .of_isEnd rfl (hvalued _ ht)
  · rw [lex_digits nonempty all]
    show _ ↔ decimalValue digits ≤ maxInteger
    split
    · next hfits => exact ⟨fun _ => hfits, fun _ => ⟨_, rfl⟩⟩
    · next hlarge =>
      refine ⟨?_, fun hfits => absurd hfits hlarge⟩
      rintro ⟨tokens, h⟩
      cases h
  · obtain ⟨t, line, stop, hlex, hkind, hpayload⟩ := lex_quoted h
    refine ⟨t, line, stop, ?_, hkind, by rwa [String.ofList_toList] at hpayload⟩
    rw [← hlex]
    congr 1
    rw [← String.toList_inj]
    simp
  · have hvalue := decimalValue_decimal zeros n
    have hfits : n ≤ maxInteger := Nat.le_pred_of_lt hn
    have hlex := lex_digits (by simp [Nat.toDigits_ne_nil]) (isDigit_of_mem_decimal zeros n)
    rw [hvalue, if_pos hfits, String.ofList_append, ← Nat.toString_eq_ofList_toDigits] at hlex
    refine ⟨_, _, _, hlex, rfl, _, rfl, ?_⟩
    rw [hvalue, Int64.toInt_ofNat_of_lt hn]

/-- The largest integer behind zeros, and a string of two lines with a character of two bytes. -/
def boundarySource : String := "0009223372036854775807 \"é\n;\" 0"

/-- Zeros do not make an integer too large. -/
theorem literals_exact_boundarySource :
    (∃ tokens, lex boundarySource = .ok tokens ∧ tokens.map (·.payload) =
        [some (.int 9223372036854775807), some (.str "é\n;"), some (.int 0), none] ∧
      ∀ t ∈ tokens, t.Exact boundarySource) ∧
    ¬ ∃ tokens, lex (.ofList "9223372036854775808".toList) = .ok tokens := by
  obtain ⟨hexact, -, haccepted, -⟩ := literals_exact
  constructor
  · have hpayloads : (lex boundarySource).toOption.map (·.map (·.payload)) =
        some [some (.int 9223372036854775807), some (.str "é\n;"), some (.int 0), none] := by
      decide +kernel
    cases h : lex boundarySource with
    | error e =>
      rw [h] at hpayloads
      cases hpayloads
    | ok tokens =>
      rw [h] at hpayloads
      exact ⟨tokens, rfl, Option.some.inj hpayloads, hexact _ _ h⟩
  · rw [haccepted _ (by decide) (List.all_eq_true.1 (by decide))]
    decide +kernel

end Lox
