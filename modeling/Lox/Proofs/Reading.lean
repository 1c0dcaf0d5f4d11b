import Lox.Proofs.Grammar

/-!
# Reading symbols

What the basic readers consume, in terms of symbols.

* `Cursor.Reads`: from one place to another, certain symbols are consumed;
* `bind_eq_ok`, `pure_eq_ok`, `map_eq_ok`: a sequence of readers that succeeds, taken apart;
* `accept_ok`, `expect_ok`, `identifier_ok`: what the basic readers consume when they succeed;
* `iterate_ok`: an invariant of a loop.
-/

namespace Lox

/-! ### What is consumed -/

theorem Cursor.kind_current_congr {c d : Cursor} (h : d.rest = c.rest) :
    d.current.kind = c.current.kind := by
  rw [current, current, h]
  cases c.rest <;> rfl

/-- From `c` to `d` the symbols `ss` are consumed, and none of them is the end marker. -/
def Cursor.Reads (c : Cursor) (ss : List Symbol) (d : Cursor) : Prop :=
  ∃ used, c.rest = used ++ d.rest ∧ used.map Token.symbol = ss ∧ ∀ t ∈ used, t.isEnd = false

namespace Cursor.Reads

variable {c d e : Cursor} {ss ts : List Symbol}

theorem of_rest_eq (h : d.rest = c.rest) : c.Reads [] d := ⟨[], by simp [h], rfl, by simp⟩

theorem trans (h : c.Reads ss d) (h' : d.Reads ts e) : c.Reads (ss ++ ts) e := by
  obtain ⟨used, hc, hs, hu⟩ := h
  obtain ⟨used', hd, hs', hu'⟩ := h'
  refine ⟨used ++ used', by rw [hc, hd, List.append_assoc], by rw [List.map_append, hs, hs'], ?_⟩
  intro t ht
  rcases List.mem_append.1 ht with ht | ht
  · exact hu t ht
  · exact hu' t ht

theorem kind_current {s : Symbol} (h : c.Reads (s :: ss) d) : c.current.kind = s.kind := by
  obtain ⟨used, hc, hs, -⟩ := h
  obtain ⟨t, rest, rfl, rfl, -⟩ := List.map_eq_cons_iff.1 hs
  simp [Cursor.current, hc]

theorem length_rest (h : c.Reads ss d) : c.rest.length = ss.length + d.rest.length := by
  obtain ⟨used, hc, rfl, -⟩ := h
  rw [hc, List.length_append, List.length_map]

/-- What happens to the rest of a place does not matter, if its tokens stay. -/
theorem congr_right (h : c.Reads ss d) (he : e.rest = d.rest) : c.Reads ss e := by
  obtain ⟨used, hc, hs, hu⟩ := h
  exact ⟨used, by rw [hc, he], hs, hu⟩

end Cursor.Reads

namespace Parser

variable {α β : Type} {c d : Cursor}

/-! ### Sequences of readers -/

theorem bind_of_ok {x : Parser α} {g : α → Parser β} {a : α} (h : x c = .ok a d) :
    (x >>= g) c = g a d := by
  show EStateM.bind x g c = _
  rw [EStateM.bind, h]

theorem bind_of_error {x : Parser α} {g : α → Parser β} {e : ParseError}
    (h : x c = .error e d) : (x >>= g) c = .error e d := by
  show EStateM.bind x g c = _
  rw [EStateM.bind, h]

theorem bind_eq_ok {x : Parser α} {f : α → Parser β} {b : β} :
    (x >>= f) c = .ok b d ↔ ∃ a e, x c = .ok a e ∧ f a e = .ok b d := by
  show EStateM.bind x f c = _ ↔ _
  unfold EStateM.bind
  cases x c with
  | ok a e => simp [and_assoc]
  | error err e => simp

theorem pure_eq_ok {a b : α} : (pure a : Parser α) c = .ok b d ↔ a = b ∧ c = d := by
  show EStateM.Result.ok a c = _ ↔ _
  simp

theorem map_eq_ok {x : Parser α} {f : α → β} {b : β} :
    (f <$> x) c = .ok b d ↔ ∃ a, x c = .ok a d ∧ f a = b := by
  show EStateM.map f x c = _ ↔ _
  unfold EStateM.map
  cases x c with
  | ok a e =>
    constructor
    · rintro ⟨⟩
      exact ⟨a, rfl, rfl⟩
    · rintro ⟨_, ⟨⟩, rfl⟩
      rfl
  | error err e => simp

theorem peek_bind (f : Token → Parser β) : (peek >>= f) c = f c.current c := rfl

theorem peekKind_bind (f : Kind → Parser β) : (peekKind >>= f) c = f c.current.kind c := rfl

theorem peekNextKind_bind (f : Kind → Parser β) : (peekNextKind >>= f) c = f c.nextKind c := rfl

/-- A sequence that starts with a choice. -/
theorem ite_bind {p : Prop} [Decidable p] (x y : Parser α) (f : α → Parser β) :
    (if p then x >>= f else y >>= f) = (if p then x else y) >>= f := by
  split <;> rfl

theorem failAt_ne_ok {fault : ParseFault} {t : Token} {a : α} : failAt fault t c ≠ .ok a d :=
  nofun

/-! ### Basic readers -/

theorem advance_eq (hne : c.current.kind ≠ .endOfInput) :
    ∃ rest, c.rest = c.current :: rest ∧
      advance c = .ok c.current { c with rest, last := c.current.span } := by
  cases hr : c.rest with
  | nil => exact absurd (by simp [Cursor.current, hr, Token.endOfInput]) hne
  | cons t rest =>
    have hc : c.current = t := by simp [Cursor.current, hr]
    refine ⟨rest, by rw [hc], ?_⟩
    rw [hc] at hne ⊢
    simp [advance, hr, Token.isEnd, hne]

theorem advance_ok {t : Token} (h : advance c = .ok t d) (hne : c.current.kind ≠ .endOfInput) :
    t = c.current ∧ c.Reads [t.symbol] d := by
  obtain ⟨rest, hrest, hadv⟩ := advance_eq hne
  rw [hadv] at h
  cases h
  exact ⟨rfl, [c.current], hrest, rfl, by simpa [Token.isEnd] using hne⟩

theorem advance_ok_mark {kind : Kind} {t : Token} (h : advance c = .ok t d)
    (hc : c.current.kind = kind) (hk : kind.isMark) : c.Reads [.fixed kind] d := by
  obtain ⟨rfl, hread⟩ := advance_ok h (by rintro he; simp [← hc, he, Kind.isMark] at hk)
  rwa [Token.symbol_of_isMark (hc ▸ hk), hc] at hread

/-- `accept` consumes the token ahead, or it is not of the kind and nothing happens. -/
theorem accept_bind_advance {kind : Kind} {f : Bool → Parser β} {b : β}
    (h : (accept kind >>= f) c = .ok b d) :
    (c.current.kind = kind ∧ ∃ t e, advance c = .ok t e ∧ f true e = .ok b d) ∨
      (c.current.kind ≠ kind ∧ f false c = .ok b d) := by
  obtain ⟨r, e, haccept, hf⟩ := bind_eq_ok.1 h
  rw [accept, peekKind_bind] at haccept
  split at haccept
  · next hkind =>
    obtain ⟨t, _, hadv, hpure⟩ := bind_eq_ok.1 haccept
    obtain ⟨rfl, rfl⟩ := pure_eq_ok.1 hpure
    exact .inl ⟨by simpa using hkind, t, _, hadv, hf⟩
  · next hkind =>
    obtain ⟨rfl, rfl⟩ := pure_eq_ok.1 haccept
    exact .inr ⟨by simpa using hkind, hf⟩

/-- After `accept`, a token of the kind is consumed, or there is none and nothing happened. -/
theorem accept_bind_ok {kind : Kind} {f : Bool → Parser β} {b : β} (hk : kind.isMark)
    (h : (accept kind >>= f) c = .ok b d) :
    (∃ e, c.Reads [.fixed kind] e ∧ f true e = .ok b d) ∨
      (c.current.kind ≠ kind ∧ f false c = .ok b d) := by
  rcases accept_bind_advance h with ⟨hkind, t, e, hadv, hf⟩ | hf
  · exact .inl ⟨e, advance_ok_mark hadv hkind hk, hf⟩
  · exact .inr hf

/-- `expect` consumes the token ahead, which is of the kind. -/
theorem expect_advance {kind : Kind} {what : Expected} {t : Token}
    (h : expect kind what c = .ok t d) : c.current.kind = kind ∧ advance c = .ok t d := by
  rw [expect, peek_bind] at h
  split at h
  · next hkind => exact ⟨by simpa using hkind, h⟩
  · exact absurd h failAt_ne_ok

theorem expect_ok {kind : Kind} {what : Expected} {t : Token} (hne : kind ≠ .endOfInput)
    (h : expect kind what c = .ok t d) : t.kind = kind ∧ c.Reads [t.symbol] d := by
  obtain ⟨hkind, hadv⟩ := expect_advance h
  obtain ⟨rfl, hread⟩ := advance_ok hadv (hkind ▸ hne)
  exact ⟨hkind, hread⟩

/-- After `expect`, a token of the kind is consumed. -/
theorem expect_bind_ok {kind : Kind} {what : Expected} {f : Token → Parser β} {b : β}
    (hk : kind.isMark) (h : (expect kind what >>= f) c = .ok b d) :
    ∃ t e, c.Reads [.fixed kind] e ∧ f t e = .ok b d := by
  obtain ⟨t, e, hexpect, hf⟩ := bind_eq_ok.1 h
  obtain ⟨rfl, hread⟩ := expect_ok (by rintro rfl; simp [Kind.isMark] at hk) hexpect
  exact ⟨t, e, Token.symbol_of_isMark hk ▸ hread, hf⟩

theorem identifier_ok {what : Expected} {x : String} (h : identifier what c = .ok x d) :
    c.Reads [.name x] d := by
  obtain ⟨t, _, hexp, h⟩ := bind_eq_ok.1 h
  obtain ⟨_, _, hintern, h⟩ := bind_eq_ok.1 h
  obtain ⟨rfl, rfl⟩ := pure_eq_ok.1 h
  cases hintern
  obtain ⟨hkind, hread⟩ := expect_ok (by simp) hexp
  rw [Token.symbol, hkind] at hread
  exact hread.congr_right rfl

theorem newExpr_ok {span : Span} {F : Mark → β} {b : β}
    (h : (newExpr span >>= fun m => pure (F m)) c = .ok b d) :
    ∃ m, b = F m ∧ d.rest = c.rest := by
  cases h
  exact ⟨_, rfl, rfl⟩

theorem newExprFrom_ok {start : Span} {F : Mark → β} {b : β}
    (h : (spanFrom start >>= fun span => newExpr span >>= fun m => pure (F m)) c = .ok b d) :
    ∃ m, b = F m ∧ d.rest = c.rest := by
  cases h
  exact ⟨_, rfl, rfl⟩

theorem newStmt_ok {start : Span} {F : Mark → β} {b : β}
    (h : (newStmt start >>= fun m => pure (F m)) c = .ok b d) :
    ∃ m, b = F m ∧ d.rest = c.rest := by
  cases h
  exact ⟨_, rfl, rfl⟩

/-! ### Loops -/

/-- What each turn of a loop leads to, when the loop stops and when it has taken all its turns. -/
theorem iterate_count_ok {step : α → Parser (Option α)} {P : Nat → α → Cursor → Prop}
    {Q : α → Cursor → Prop}
    (turn : ∀ k a b c d, P k a c → step a c = .ok (some b) d → P (k + 1) b d)
    (stop : ∀ k a c d, P k a c → step a c = .ok none d → Q a d) {n k : Nat} {a b : α}
    (ha : P k a c) (h : iterate step n a c = .ok b d) : Q b d ∨ P (k + n) b d := by
  induction n generalizing k a c with
  | zero =>
    obtain ⟨rfl, rfl⟩ := pure_eq_ok.1 h
    exact .inr ha
  | succ n ih =>
    obtain ⟨r, e, hstep, h⟩ := bind_eq_ok.1 h
    cases r with
    | none =>
      obtain ⟨rfl, rfl⟩ := pure_eq_ok.1 h
      exact .inl (stop _ _ _ _ ha hstep)
    | some a' =>
      rw [show k + (n + 1) = k + 1 + n by omega]
      exact ih (turn _ _ _ _ _ ha hstep) h

/-- What holds before a loop, and is kept by each turn and by the end, holds after it. -/
theorem iterate_ok {step : α → Parser (Option α)} {P : α → Cursor → Prop}
    (turn : ∀ a b c d, P a c → step a c = .ok (some b) d → P b d)
    (stop : ∀ a c d, P a c → step a c = .ok none d → P a d) {n : Nat} {a b : α}
    (ha : P a c) (h : iterate step n a c = .ok b d) : P b d :=
  (iterate_count_ok (P := fun _ => P) (k := 0) (fun _ => turn) (fun _ => stop) ha h).elim id id

end Parser

end Lox
