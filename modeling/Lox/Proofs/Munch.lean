import Lox.Proofs.Lexeme
import Lox.Proofs.Lexing
import Mathlib.Data.List.TakeWhile

/-!
# Pieces and token texts

The piece that `munch` finds at the head of a text is what the descriptions of token texts and of
gaps say, in both directions.

* `munch_word`, `munch_integer`, `munch_float`, `munch_string`: what is found at the head of a run
  of characters and of a text that does not go on with it;
* `munch_blank`, `munch_eq_blank`: the blank pieces;
* `munch_forms`: the text of a token before white space, and `Forms.unique`;
* `munch_eq_token`: a token that is found is the longest one.
-/

namespace Lox

/-! ### Runs of characters -/

theorem takeWhile_append_stop {p : Char → Bool} {ds rest : List Char} (h : ∀ d ∈ ds, p d)
    (hstop : ∀ c ∈ rest.head?, p c = false) : (ds ++ rest).takeWhile p = ds := by
  rw [List.takeWhile_append_of_pos h]
  cases rest with
  | nil => rw [List.takeWhile_nil, List.append_nil]
  | cons c rest =>
    have hc : p c = false := hstop c rfl
    rw [List.takeWhile_cons, hc]
    exact List.append_nil ds

/-- A text is a run of characters and what does not go on with it. -/
theorem exists_run (p : Char → Bool) (cs : List Char) :
    ∃ ds rest, cs = ds ++ rest ∧ (∀ d ∈ ds, p d) ∧ ∀ c ∈ rest.head?, p c = false := by
  refine ⟨cs.takeWhile p, cs.dropWhile p, List.takeWhile_append_dropWhile.symm,
    fun d hd => List.mem_takeWhile_imp hd, fun c hc => ?_⟩
  have := List.head?_dropWhile_not p cs
  rw [Option.mem_def.1 hc] at this
  exact this

/-- A run at the head of a text is no longer than the one that the text does not go on with. -/
theorem length_le_of_run {p : Char → Bool} {ds run rest : List Char} (h : ds <+: run ++ rest)
    (hds : ∀ d ∈ ds, p d) (hrun : ∀ d ∈ run, p d) (hstop : ∀ c ∈ rest.head?, p c = false) :
    ds.length ≤ run.length := by
  obtain ⟨more, hmore⟩ := h
  have htake := congrArg (List.takeWhile p) hmore
  rw [takeWhile_append_stop hrun hstop, List.takeWhile_append_of_pos hds] at htake
  rw [← htake, List.length_append]
  omega

/-- Where a run ends is determined by the text. -/
theorem run_unique {p : Char → Bool} {c : Char} (hc : p c = false) {ds as run rest : List Char}
    (h : ds ++ c :: as <+: run ++ rest) (hds : ∀ d ∈ ds, p d) (hrun : ∀ d ∈ run, p d)
    (hstop : ∀ c ∈ rest.head?, p c = false) : ds = run ∧ c :: as <+: rest := by
  obtain ⟨more, hmore⟩ := h
  rw [List.append_assoc] at hmore
  have htake := congrArg (List.takeWhile p) hmore
  rw [takeWhile_append_stop hds (by simpa using hc), takeWhile_append_stop hrun hstop] at htake
  subst htake
  exact ⟨rfl, more, List.append_cancel_left hmore⟩

/-- White space does not go on with a run. -/
theorem space_stops {p : Char → Bool} (hp : spaces.all (!p ·)) {rest : List Char}
    (hrest : ∀ c ∈ rest.head?, c ∈ spaces) : ∀ c ∈ rest.head?, p c = false := by
  intro c hc
  simpa using List.all_eq_true.1 hp c (hrest c hc)

theorem all_ne_of_not_mem {c : Char} {cs : List Char} (h : c ∉ cs) : ∀ d ∈ cs, (d != c) = true :=
  fun d hd => by simpa using fun heq : d = c => h (heq ▸ hd)

/-! ### Words, numbers and strings -/

section Runs

variable {c : Char} {cs rest : List Char}

theorem munch_of_isDigit (h : c.isDigit) (cs : List Char) : munch c cs = munchNumber c cs := by
  unfold munch
  split
  all_goals first
    | exact absurd h (by decide)
    | rw [munchPlain, if_pos h]

theorem munch_of_isWordStart (h : isWordStart c) (cs : List Char) :
    munch c cs = munchWord c cs := by
  unfold munch
  split
  all_goals first
    | exact absurd h (by decide)
    | rw [munchPlain, if_neg (not_isDigit_of_isWordStart h), if_pos h]

theorem munch_word (start : isWordStart c) (more : ∀ d ∈ cs, isWordChar d)
    (hstop : ∀ d ∈ rest.head?, isWordChar d = false) :
    munch c (cs ++ rest) = (.ok (.token (.ofWord (.ofList (c :: cs))) none), cs.length) := by
  rw [munch_of_isWordStart start, munchWord, takeWhile_append_stop more hstop]

/-- A run of digits is an integer, if no point and digit follow it. -/
theorem munch_integer (all : ∀ d ∈ c :: cs, d.isDigit)
    (hstop : ∀ d ∈ rest.head?, d.isDigit = false)
    (hpoint : ∀ d more, rest = '.' :: d :: more → ¬ d.isDigit) :
    munch c (cs ++ rest) = munchNumber.munchInteger c cs := by
  have htake : (cs ++ rest).takeWhile Char.isDigit = cs :=
    takeWhile_append_stop (fun d hd => all d (by simp [hd])) hstop
  rw [munch_of_isDigit (all c (by simp)), munchNumber, htake]
  dsimp only
  rw [List.drop_left]
  split
  · next d more => rw [if_neg (hpoint d more rfl)]
  · rfl

theorem munch_float {fraction : List Char} (all : ∀ d ∈ c :: cs, d.isDigit) (hne : fraction ≠ [])
    (all' : ∀ d ∈ fraction, d.isDigit) (hstop : ∀ d ∈ rest.head?, d.isDigit = false) :
    munch c (cs ++ '.' :: fraction ++ rest) =
      (.ok (.token .float (some (.float (pointed (c :: cs) fraction)))),
        cs.length + 1 + fraction.length) := by
  obtain ⟨d, fraction, rfl⟩ := List.exists_cons_of_ne_nil hne
  have htake : (cs ++ '.' :: (d :: fraction ++ rest)).takeWhile Char.isDigit = cs :=
    takeWhile_append_stop (fun d hd => all d (by simp [hd])) (by simp)
  have htake' : (d :: fraction ++ rest).takeWhile Char.isDigit = d :: fraction :=
    takeWhile_append_stop all' hstop
  rw [List.cons_append] at htake'
  rw [munch_of_isDigit (all c (by simp)), munchNumber, List.append_assoc, List.cons_append, htake]
  dsimp only
  rw [List.drop_left, List.cons_append]
  show (if d.isDigit then _ else _) = _
  rw [if_pos (all' d (by simp)), htake']
  rfl

theorem munch_string {contents : List Char} (h : '"' ∉ contents) (rest : List Char) :
    munch '"' (contents ++ ['"'] ++ rest) =
      (.ok (.token .string (some (.str (.ofList contents)))), contents.length + 1) := by
  have htake : (contents ++ '"' :: rest).takeWhile (· != '"') = contents :=
    takeWhile_append_stop (all_ne_of_not_mem h) (by simp)
  show munchString (contents ++ ['"'] ++ rest) = _
  rw [munchString, List.append_assoc, List.singleton_append, htake, if_pos (by simp)]

end Runs

/-! ### Blanks -/

/-- The length of a block comment is that up to the first `*/`. -/
theorem commentLength?_eq {body : List Char} (h : ¬ ['*', '/'] <:+: body) (n : Nat)
    (rest : List Char) :
    commentLength? n (body ++ '*' :: '/' :: rest) = some (n + body.length + 2) := by
  induction body generalizing n with
  | nil => rfl
  | cons c body ih =>
    rw [List.infix_cons_iff, not_or] at h
    rw [List.cons_append, commentLength?]
    · rw [ih h.2, List.length_cons]
      congr 1
      omega
    · rintro more rfl hmore
      -- the slash is not the one of the end, as the end starts with a star
      rcases body with _ | ⟨d, body⟩
      · cases hmore
      · cases hmore
        exact h.1 ⟨body, rfl⟩

/-- A comment that has a length ends at the first `*/`. -/
theorem commentLength?_eq_some {n k : Nat} {cs : List Char} (h : commentLength? n cs = some k) :
    ∃ body rest, cs = body ++ '*' :: '/' :: rest ∧ ¬ ['*', '/'] <:+: body ∧
      k = n + body.length + 2 := by
  fun_induction commentLength? n cs with
  | case1 n cs =>
    cases h
    exact ⟨[], cs, rfl, by simp, rfl⟩
  | case2 n c cs hne ih =>
    obtain ⟨body, rest, rfl, hbody, rfl⟩ := ih h
    refine ⟨c :: body, rest, rfl, ?_, by rw [List.length_cons]; omega⟩
    rw [List.infix_cons_iff, not_or]
    refine ⟨?_, hbody⟩
    rintro ⟨more, hmore⟩
    obtain ⟨rfl, rfl⟩ := List.cons.inj hmore
    exact hne _ rfl rfl
  | case3 => cases h

theorem munch_blank {c : Char} {cs rest : List Char} (h : Blank rest (c :: cs)) :
    munch c (cs ++ rest) = (.ok .blank, cs.length) := by
  cases h with
  | space h =>
    simp only [spaces, List.mem_cons, List.not_mem_nil, or_false] at h
    rcases h with rfl | rfl | rfl | rfl <;> rfl
  | @line body h stop =>
    have htake : (body ++ rest).takeWhile (· != '\n') = body :=
      takeWhile_append_stop (all_ne_of_not_mem h) fun c hc => by simp [stop c hc]
    show (Except.ok Piece.blank, runLength (· != '\n') ('/' :: (body ++ rest))) = _
    rw [runLength, List.takeWhile_cons, htake]
    rfl
  | @block body h =>
    rw [List.cons_append, List.append_assoc]
    show munchSlash ('*' :: (body ++ '*' :: '/' :: rest)) = _
    rw [munchSlash, commentLength?_eq h]
    simp [Nat.add_comm 1]

theorem not_startsBlank_of_munch {c : Char} {cs : List Char} {kind : Kind}
    {payload : Option Payload} {n : Nat} (h : munch c cs = (.ok (.token kind payload), n)) :
    ¬ StartsBlank (c :: cs) := by
  rintro ⟨blank, rest, hcs, hblank⟩
  obtain ⟨d, blank, rfl⟩ := List.exists_cons_of_ne_nil hblank.ne_nil
  obtain ⟨rfl, rfl⟩ := List.cons.inj hcs
  rw [List.append_eq, munch_blank hblank] at h
  cases h

/-- The blank pieces that start with a slash are comments. -/
theorem munchSlash_eq_blank {cs : List Char} {n : Nat} (h : munchSlash cs = (.ok .blank, n)) :
    Blank (cs.drop n) ('/' :: cs.take n) := by
  unfold munchSlash at h
  split at h
  · next cs =>
    obtain ⟨body, rest, rfl, hbody, hstop⟩ := exists_run (· != '\n') cs
    rw [runLength, List.takeWhile_cons, takeWhile_append_stop hbody hstop] at h
    cases h
    show Blank ((body ++ rest).drop body.length) ('/' :: '/' :: (body ++ rest).take body.length)
    rw [List.drop_left, List.take_left]
    exact .line (fun hmem => by simpa using hbody _ hmem) fun c hc => by simpa using hstop c hc
  · next cs =>
    split at h
    · next k hk =>
      obtain ⟨body, rest, rfl, hbody, rfl⟩ := commentLength?_eq_some hk
      cases h
      have hlength : 1 + body.length + 2 = ('*' :: (body ++ ['*', '/'])).length := by
        rw [List.length_cons, List.length_append]
        simp only [List.length_cons, List.length_nil]
        omega
      have hcs : '*' :: (body ++ '*' :: '/' :: rest) = '*' :: (body ++ ['*', '/']) ++ rest := by
        simp
      rw [hcs, hlength, List.drop_left, List.take_left]
      exact .block hbody
    · cases h
  · cases h

theorem munchLonger_ne_blank {cs : List Char} {short : Kind} {long : List (Char × Kind)} {n : Nat} :
    munchLonger cs short long ≠ (.ok .blank, n) := by
  intro h
  unfold munchLonger at h
  split at h
  · split at h <;> cases h
  · cases h

theorem munchString_ne_blank {cs : List Char} {n : Nat} : munchString cs ≠ (.ok .blank, n) := by
  intro h
  rw [munchString] at h
  split at h <;> cases h

theorem munchPlain_ne_blank {c : Char} {cs : List Char} {n : Nat} :
    munchPlain c cs ≠ (.ok .blank, n) := by
  have integer : ∀ digits, munchNumber.munchInteger c digits ≠ (.ok .blank, n) := by
    intro digits h
    cases (munchInteger_eq_ok h).1
  intro h
  rw [munchPlain] at h
  split at h
  · rw [munchNumber] at h
    dsimp only at h
    split at h
    · split at h
      · cases h
      · exact integer _ h
    · exact integer _ h
  · split at h <;> cases h

theorem munch_eq_blank {c : Char} {cs : List Char} {n : Nat} (h : munch c cs = (.ok .blank, n)) :
    n ≤ cs.length ∧ Blank (cs.drop n) (c :: cs.take n) := by
  refine ⟨(munch_steady c).length_le h, ?_⟩
  unfold munch at h
  split at h
  all_goals first
    | cases h; exact .space (by decide)
    | exact munchSlash_eq_blank h
    | exact absurd h munchLonger_ne_blank
    | exact absurd h munchString_ne_blank
    | exact absurd h munchPlain_ne_blank
    | cases h

/-! ### Token texts before white space -/

theorem munch_sign {kind : Kind} (h : kind ∈ Kind.signs) {c : Char} {cs rest : List Char}
    (hname : kind.name.toList = c :: cs) (hrest : ∀ d ∈ rest.head?, d ∈ spaces) :
    munch c (cs ++ rest) = (.ok (.token kind none), cs.length) := by
  rcases rest with _ | ⟨d, rest⟩
  · cases kind <;> first
      | exact absurd h (by decide)
      | cases hname; rfl
  · have hd : d ∈ spaces := hrest d rfl
    simp only [spaces, List.mem_cons, List.not_mem_nil, or_false] at hd
    rcases hd with rfl | rfl | rfl | rfl
    all_goals
      cases kind <;> first
        | exact absurd h (by decide)
        | cases hname; rfl

theorem Kind.ofWord_name {kind : Kind} (h : kind ∈ keywords) : ofWord kind.name = kind := by
  have hall : ∀ kind ∈ keywords, ofWord kind.name = kind := by decide
  exact hall kind h

theorem Kind.ofWord_eq_identifier {word : List Char}
    (h : ∀ kind ∈ keywords, kind.name.toList ≠ word) :
    ofWord (.ofList word) = .identifier := by
  rw [ofWord, List.find?_eq_none.2, Option.getD_none]
  intro kind hkind hname
  refine h kind hkind ?_
  rw [eq_of_beq hname, String.toList_ofList]

/-- A word is a token of its kind. -/
theorem Kind.forms_ofWord {c : Char} {cs : List Char} (start : isWordStart c)
    (more : ∀ d ∈ cs, isWordChar d) : (ofWord (.ofList (c :: cs))).Forms (c :: cs) := by
  by_cases hfree : ∀ kind ∈ keywords, kind.name.toList ≠ c :: cs
  · rw [ofWord_eq_identifier hfree]
    exact .identifier start more hfree
  · simp only [not_forall, not_not] at hfree
    obtain ⟨kind, hkind, hname⟩ := hfree
    rw [← hname, String.ofList_toList, ofWord_name hkind]
    exact .keyword hkind

/-- The text of a token is found as a whole before white space, if it is no integer that is too
large. -/
theorem munch_forms {kind : Kind} {c : Char} {cs rest : List Char} (h : kind.Forms (c :: cs))
    (hfits : kind = .integer → digitsValue 0 (c :: cs) ≤ maxInteger)
    (hrest : ∀ d ∈ rest.head?, d ∈ spaces) :
    munch c (cs ++ rest) = (.ok (.token kind (kind.payload? (c :: cs))), cs.length) := by
  have hword := space_stops (p := isWordChar) (by decide) hrest
  have hdigit := space_stops (p := Char.isDigit) (by decide) hrest
  generalize htext : c :: cs = text at h
  cases h with
  | sign h => rw [munch_sign h htext.symm hrest, Kind.payload?_eq_none (.inl h)]
  | @keyword kind h =>
    obtain ⟨start, more⟩ := word_of_keyword h htext.symm
    rw [munch_word start more hword, htext, String.ofList_toList, Kind.ofWord_name h,
      Kind.payload?_eq_none (.inr h)]
  | identifier start more free =>
    cases htext
    rw [munch_word start more hword, Kind.ofWord_eq_identifier free]
    rfl
  | integer nonempty all =>
    subst htext
    have hpoint : ∀ d more, rest = '.' :: d :: more → ¬ d.isDigit := by
      rintro d more rfl
      exact absurd (hrest '.' rfl) (by decide)
    rw [munch_integer all hdigit hpoint, munchNumber.munchInteger, if_pos (hfits rfl)]
    rfl
  | @float whole fraction nonempty all nonempty' all' =>
    obtain ⟨d, whole, rfl⟩ := List.exists_cons_of_ne_nil nonempty
    rw [List.cons_append] at htext
    obtain ⟨rfl, rfl⟩ := List.cons.inj htext
    rw [munch_float all nonempty' all' hdigit, Kind.payload?_float all, List.length_append,
      List.length_cons, Nat.add_assoc, Nat.add_comm 1]
  | string h =>
    rw [List.cons_append] at htext
    obtain ⟨rfl, rfl⟩ := List.cons.inj htext
    rw [munch_string h]
    simp [Kind.payload?]

/-- A number is found as an integer, if it is found as a token. -/
theorem munch_forms_integer {kind : Kind} {c : Char} {cs : List Char}
    (h : Kind.Forms .integer (c :: cs)) {payload : Option Payload} {n : Nat}
    (hmunch : munch c cs = (.ok (.token kind payload), n)) : kind = .integer := by
  generalize htext : c :: cs = text at h
  generalize hkind : Kind.integer = k at h
  cases h with
  | sign h =>
    subst hkind
    exact absurd h (by decide)
  | keyword h =>
    subst hkind
    exact absurd h (by decide)
  | integer _ all =>
    subst htext
    rw [← List.append_nil cs, munch_integer all (by simp) (by simp)] at hmunch
    simpa [Piece.kind?] using (munchInteger_eq_ok hmunch).1
  | _ => cases hkind

/-- A text is a token of one kind only. -/
theorem Kind.Forms.unique {kind kind' : Kind} {text : List Char} (h : kind.Forms text)
    (h' : kind'.Forms text) : kind' = kind := by
  obtain ⟨c, cs, rfl⟩ := List.exists_cons_of_ne_nil h.ne_nil
  -- what is found is a token of the kind, unless the text is an integer that may be too large
  have found : ∀ {k : Kind}, k.Forms (c :: cs) → k ≠ .integer →
      munch c cs = (.ok (.token k (k.payload? (c :: cs))), cs.length) := by
    intro k hk hne
    have hrest : ∀ d ∈ ([] : List Char).head?, d ∈ spaces := by simp
    simpa using munch_forms hk (fun hint => absurd hint hne) hrest
  by_cases hint : kind = .integer
  · subst hint
    by_cases hint' : kind' = .integer
    · exact hint'
    · exact munch_forms_integer h (found h' hint')
  · by_cases hint' : kind' = .integer
    · subst hint'
      exact (munch_forms_integer h' (found h hint)).symm
    · have := (found h hint).symm.trans (found h' hint')
      simp only [Prod.mk.injEq, Except.ok.injEq, Piece.token.injEq] at this
      exact this.1.1.symm

/-! ### Tokens that are found -/

/-- A text found at the head of `c :: cs` is the longest token there, if no text of another shape is
longer. -/
theorem longest_of_shape {kind : Kind} {c : Char} {cs : List Char} {n : Nat} (hn : n ≤ cs.length)
    (hforms : kind.Forms (c :: cs.take n))
    (hshape : ∀ ds, Shape c ds → ds <+: cs → ds.length ≤ n) :
    kind.Longest (c :: cs.take n) (c :: cs) := by
  refine ⟨hforms, ⟨cs.drop n, by simp⟩, fun kind' text' hforms' hstarts => ?_⟩
  cases text' with
  | nil => simp
  | cons d ds =>
    obtain ⟨rfl, hds⟩ := List.cons_prefix_cons.1 hstarts
    have := hshape ds hforms'.shape hds
    simp only [List.length_cons, List.length_take]
    omega

section Longest

variable {kind : Kind} {payload : Option Payload} {c : Char} {cs : List Char} {n : Nat}

theorem longest_sign {short : Kind} (hsign : short ∈ Kind.signs) (hname : short.name.toList = [c])
    (hshape : ∀ ds, Shape c ds → ds <+: cs → ds = []) : short.Longest [c] (c :: cs) := by
  refine longest_of_shape (Nat.zero_le _) (hname ▸ .sign hsign) fun ds hds hstarts => ?_
  rw [hshape ds hds hstarts]
  rfl

/-- A sign that nothing can make longer. -/
theorem longest_single (hword : ¬ isWordStart c) (hdigit : ¬ c.isDigit) (hquote : c ≠ '"')
    (hpairs : ∀ p ∈ signPairs, p.1 ≠ c) {short : Kind} (hsign : short ∈ Kind.signs)
    (hname : short.name.toList = [c]) : short.Longest [c] (c :: cs) := by
  refine longest_sign hsign hname fun ds hds _ => ?_
  rcases hds.of_sign hword hdigit hquote with rfl | ⟨d, -, hd⟩
  · rfl
  · exact absurd rfl (hpairs _ hd)

/-- A sign that certain characters make longer. -/
theorem munchLonger_longest (hword : ¬ isWordStart c) (hdigit : ¬ c.isDigit) (hquote : c ≠ '"')
    {short : Kind} {long : List (Char × Kind)} (hsign : short ∈ Kind.signs)
    (hname : short.name.toList = [c])
    (hlong : ∀ e ∈ long, e.2 ∈ Kind.signs ∧ e.2.name.toList = [c, e.1])
    (hpairs : ∀ p ∈ signPairs, p.1 = c → (long.lookup p.2).isSome)
    (h : munchLonger cs short long = (.ok (.token kind payload), n)) :
    kind.Longest (c :: cs.take n) (c :: cs) := by
  unfold munchLonger at h
  split at h
  · next d cs =>
    split at h
    · next longer hlookup =>
      cases h
      obtain ⟨as, bs, hmem, -⟩ := List.lookup_eq_some_iff.1 hlookup
      obtain ⟨hlonger, hlongerName⟩ := hlong (d, kind) (by simp [hmem])
      refine longest_of_shape (by simp) ?_ fun ds hds _ => ?_
      · rw [List.take_succ_cons, List.take_zero, ← hlongerName]
        exact .sign hlonger
      · rcases hds.of_sign hword hdigit hquote with rfl | ⟨d, rfl, -⟩ <;> simp
    · next hlookup =>
      cases h
      refine longest_sign hsign hname fun ds hds hstarts => ?_
      rcases hds.of_sign hword hdigit hquote with rfl | ⟨d', rfl, hd⟩
      · rfl
      · obtain ⟨rfl, -⟩ := List.cons_prefix_cons.1 hstarts
        have := hpairs _ hd rfl
        simp [hlookup] at this
  · cases h
    refine longest_sign hsign hname fun ds _ hstarts => ?_
    exact List.prefix_nil.1 hstarts

theorem munchSlash_longest (h : munchSlash cs = (.ok (.token kind payload), n)) :
    kind.Longest ('/' :: cs.take n) ('/' :: cs) := by
  unfold munchSlash at h
  split at h
  · cases h
  · split at h <;> cases h
  · cases h
    exact longest_single (by decide) (by decide) (by decide) (by decide) (by decide) (by decide)

theorem munchWord_longest (start : isWordStart c)
    (h : munch c cs = (.ok (.token kind payload), n)) :
    kind.Longest (c :: cs.take n) (c :: cs) := by
  obtain ⟨word, rest, rfl, hword, hstop⟩ := exists_run isWordChar cs
  rw [munch_word start hword hstop] at h
  cases h
  refine longest_of_shape (by simp) ?_ fun ds hds hstarts =>
    length_le_of_run hstarts (hds.of_word start) hword hstop
  rw [List.take_left]
  exact Kind.forms_ofWord start hword

theorem munchNumber_longest (start : c.isDigit)
    (h : munch c cs = (.ok (.token kind payload), n)) :
    kind.Longest (c :: cs.take n) (c :: cs) := by
  obtain ⟨digits, rest, rfl, hdigits, hstop⟩ := exists_run Char.isDigit cs
  have all : ∀ d ∈ c :: digits, d.isDigit := by simpa [start] using hdigits
  by_cases hpoint : ∃ d more, rest = '.' :: d :: more ∧ d.isDigit
  · obtain ⟨d, more, rfl, hd⟩ := hpoint
    obtain ⟨fraction, rest, hmore, hfraction, hstop'⟩ := exists_run Char.isDigit (d :: more)
    have hne : fraction ≠ [] := by
      rintro rfl
      have := hstop' d (by rw [← List.nil_append rest, ← hmore]; rfl)
      simp [hd] at this
    have hcs : digits ++ '.' :: d :: more = digits ++ '.' :: fraction ++ rest := by
      rw [hmore, List.append_assoc, List.cons_append]
    rw [hcs] at h ⊢
    rw [munch_float all hne hfraction hstop'] at h
    cases h
    have hlength : digits.length + 1 + fraction.length = (digits ++ '.' :: fraction).length := by
      rw [List.length_append, List.length_cons]
      omega
    refine longest_of_shape (by rw [hlength]; simp) ?_ fun ds hds hstarts => ?_
    · rw [hlength, List.take_left]
      exact .float (by simp) all hne hfraction
    · rw [List.append_assoc, List.cons_append] at hstarts
      rcases hds.of_digit start with hds | ⟨whole, fraction', rfl, hwhole, -, hfraction'⟩
      · have := length_le_of_run hstarts hds hdigits hstop
        omega
      · obtain ⟨rfl, hpoint⟩ := run_unique (by decide) hstarts hwhole hdigits hstop
        obtain ⟨-, hmore⟩ := List.cons_prefix_cons.1 hpoint
        have := length_le_of_run hmore hfraction' hfraction hstop'
        rw [List.length_append, List.length_cons]
        omega
  · have hpoint : ∀ d more, rest = '.' :: d :: more → ¬ d.isDigit :=
      fun d more hrest hd => hpoint ⟨d, more, hrest, hd⟩
    rw [munch_integer all hstop hpoint] at h
    obtain ⟨hkind, rfl⟩ := munchInteger_eq_ok h
    obtain rfl : kind = .integer := by simpa [Piece.kind?] using hkind
    refine longest_of_shape (by simp) ?_ fun ds hds hstarts => ?_
    · rw [List.take_left]
      exact .integer (by simp) all
    · rcases hds.of_digit start with hds | ⟨whole, fraction, rfl, hwhole, hne, hfraction⟩
      · exact length_le_of_run hstarts hds hdigits hstop
      · -- a float here would need the point and the digit that do not follow
        obtain ⟨d, fraction, rfl⟩ := List.exists_cons_of_ne_nil hne
        obtain ⟨-, more, hrest⟩ := run_unique (by decide) hstarts hwhole hdigits hstop
        exact absurd (hfraction d (by simp)) (hpoint d _ hrest.symm)

theorem munchString_longest (h : munch '"' cs = (.ok (.token kind payload), n)) :
    kind.Longest ('"' :: cs.take n) ('"' :: cs) := by
  obtain ⟨contents, rest, rfl, hcontents, hstop⟩ := exists_run (· != '"') cs
  have hquote : '"' ∉ contents := fun hmem => by simpa using hcontents _ hmem
  rcases rest with _ | ⟨d, rest⟩
  · rw [List.append_nil] at h
    have h : munchString contents = (.ok (.token kind payload), n) := h
    have htake := takeWhile_append_stop hcontents hstop
    rw [List.append_nil] at htake
    rw [munchString, htake, if_neg (Nat.lt_irrefl _)] at h
    cases h
  · have hd : d = '"' := by simpa using hstop d rfl
    subst hd
    have hcs : contents ++ '"' :: rest = contents ++ ['"'] ++ rest := by simp
    rw [hcs] at h ⊢
    rw [munch_string hquote] at h
    cases h
    have hlength : contents.length + 1 = (contents ++ ['"']).length := by simp
    rw [hlength]
    refine longest_of_shape (by simp) ?_ fun ds hds hstarts => ?_
    · rw [List.take_left]
      exact .string hquote
    · obtain ⟨contents', rfl, hquote'⟩ := hds.of_quote
      rw [List.append_assoc] at hstarts
      have hunique := run_unique (p := (· != '"')) (by simp) hstarts
        (all_ne_of_not_mem hquote') hcontents hstop
      rw [hunique.1]

/-- A token that is found at the head of a text is the longest one there. -/
theorem munch_eq_token (h : munch c cs = (.ok (.token kind payload), n)) :
    n ≤ cs.length ∧ kind.Longest (c :: cs.take n) (c :: cs) := by
  refine ⟨(munch_steady c).length_le h, ?_⟩
  by_cases hdigit : c.isDigit
  · exact munchNumber_longest hdigit h
  by_cases hword : isWordStart c
  · exact munchWord_longest hword h
  by_cases hquote : c = '"'
  · subst hquote
    exact munchString_longest h
  unfold munch at h
  split at h
  all_goals first
    | exact absurd rfl hquote
    | cases h; exact longest_single hword hdigit hquote (by decide) (by decide) (by decide)
    | exact munchLonger_longest hword hdigit hquote (by decide) (by decide) (by decide)
        (by decide) h
    | exact munchSlash_longest h
    | rw [munchPlain, if_neg hdigit, if_neg hword] at h; cases h
    | cases h

end Longest

end Lox
