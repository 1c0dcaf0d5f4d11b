import Lox.Proofs.Reading

/-!
# What is ahead of a reader

No reader gets past the first end marker of a token list. So what follows the marker does not
matter, and no token is asked for behind it.

* `Fork`: two token lists that are the same up to their first end marker;
* `Fork.At`: places in both, with as many tokens before the marker;
* `Fork.Ahead`, `Fork.Blames`: the tokens up to the marker, and errors that are blamed on them;
* `Parser.Inside`: a reader that looks at the tokens up to the marker only;
* `Fork.Same`: two readers that do the same in both lists, one of which is inside the first, with a
  rule for each way to build readers;
* a lemma for each basic reader, and `Fork.same_iterate` for loops.
-/

namespace Lox

/-! ### Places -/

/-- Two token lists that are the same up to their first end marker. -/
structure Fork where
  before : List Token
  marker : Token
  behind : List Token
  behind' : List Token
  before_open : ∀ t ∈ before, t.isEnd = false
  marker_isEnd : marker.isEnd = true

namespace Fork

/-- The first of the two lists. -/
def left (F : Fork) : List Token := F.before ++ F.marker :: F.behind

/-- The tokens up to the first end marker. -/
def Ahead (F : Fork) (t : Token) : Prop := t ∈ F.before ++ [F.marker]

/-- An error that is blamed on a token up to the first end marker. -/
def Blames (F : Fork) (e : ParseError) : Prop := ∃ t, F.Ahead t ∧ e = .ofToken e.fault t

/-- Places in the two lists, with `m` tokens before the marker, where the same was made so far. -/
def At (F : Fork) (m : Nat) (c c' : Cursor) : Prop :=
  ∃ ahead, ahead <:+ F.before ∧ ahead.length = m ∧ c.rest = ahead ++ F.marker :: F.behind ∧
    c' = { c with rest := ahead ++ F.marker :: F.behind' }

end Fork

/-- A place in a token list, at most `n` tokens behind its start. -/
def Cursor.UpTo (tokens : List Token) (n : Nat) (c : Cursor) : Prop :=
  ∃ k ≤ n, c.rest = tokens.drop k

/-- From a place, a reader looks at the tokens with the numbers up to `n` only: it is put together
from basic readers, and each of them that needs a token is run where this token is one of them. -/
inductive Parser.Inside (tokens : List Token) (n : Nat) :
    {α : Type} → Parser α → Cursor → Prop
  | pure {α : Type} {a : α} {c : Cursor} : Inside tokens n (pure a) c
  | throw {α : Type} {e : ParseError} {c : Cursor} : Inside tokens n (throw e : Parser α) c
  | peek {c : Cursor} (h : c.UpTo tokens n) : Inside tokens n peek c
  | peekKind {c : Cursor} (h : c.UpTo tokens n) : Inside tokens n peekKind c
  | peekNextKind {c : Cursor} {k : Nat} (h : k < n) (hc : c.rest = tokens.drop k) :
      Inside tokens n peekNextKind c
  | advance {c : Cursor} (h : c.UpTo tokens n) : Inside tokens n advance c
  | intern {text : String} {c : Cursor} : Inside tokens n (intern text) c
  | spanFrom {start : Span} {c : Cursor} (h : c.UpTo tokens n) : Inside tokens n (spanFrom start) c
  | newExpr {span : Span} {c : Cursor} : Inside tokens n (newExpr span) c
  | newStmt {start : Span} {c : Cursor} (h : c.UpTo tokens n) : Inside tokens n (newStmt start) c
  | keepTarget {target : Expr} {c : Cursor} : Inside tokens n (keepTarget target) c
  | bind {α β : Type} {x : Parser α} {f : α → Parser β} {c : Cursor} (first : Inside tokens n x c)
      (next : ∀ a d, x c = .ok a d → Inside tokens n (f a) d) : Inside tokens n (x >>= f) c

namespace Fork

open Lox.Parser

variable {F : Fork} {m : Nat} {c c' : Cursor}

/-- From the marker on the lists may differ, but the token ahead is the same. -/
theorem At.current (h : F.At m c c') : c'.current = c.current := by
  obtain ⟨ahead, -, -, hc, rfl⟩ := h
  cases ahead <;> simp [Cursor.current, hc]

theorem At.ahead (h : F.At m c c') : F.Ahead c.current := by
  obtain ⟨ahead, hsuffix, -, hc, -⟩ := h
  cases ahead with
  | nil => simp [Ahead, Cursor.current, hc]
  | cons t ahead =>
    have ht : t ∈ F.before := hsuffix.subset (.head _)
    simp [Ahead, Cursor.current, hc, ht]

theorem At.upTo (h : F.At m c c') : c.UpTo F.left F.before.length := by
  obtain ⟨ahead, ⟨used, hused⟩, -, hc, -⟩ := h
  refine ⟨used.length, by simp [← hused], ?_⟩
  rw [hc, left, ← hused, List.append_assoc, List.drop_left]

/-- A token ahead that is no end marker is before the marker. -/
theorem At.pos (h : F.At m c c') (hne : c.current.kind ≠ .endOfInput) : 0 < m := by
  obtain ⟨ahead, -, rfl, hc, -⟩ := h
  cases ahead with
  | nil =>
    have hmarker := F.marker_isEnd
    simp [Cursor.current, hc] at hne
    simp [Token.isEnd, hne] at hmarker
  | cons t ahead => simp

/-- Before the marker there is a token ahead, and one behind it. -/
theorem At.exists_cons (h : F.At m c c') (hm : 0 < m) :
    ∃ t ahead, (t :: ahead) <:+ F.before ∧ ahead.length + 1 = m ∧ t.isEnd = false ∧
      c.rest = t :: ahead ++ F.marker :: F.behind ∧
      c' = { c with rest := t :: ahead ++ F.marker :: F.behind' } := by
  obtain ⟨ahead, hsuffix, rfl, hc, rfl⟩ := h
  obtain ⟨t, ahead, rfl⟩ := List.exists_cons_of_length_pos hm
  exact ⟨t, ahead, hsuffix, rfl, F.before_open t (hsuffix.subset (.head _)), hc, rfl⟩

/-- At an end marker, a place is at the first one. -/
theorem At.rest_eq_drop (h : F.At m c c') (hend : c.current.kind = .endOfInput) :
    c.rest = F.left.drop F.before.length := by
  obtain rfl : m = 0 := Nat.eq_zero_of_not_pos fun hm => by
    obtain ⟨t, ahead, -, -, ht, hrest, -⟩ := h.exists_cons hm
    simp [Cursor.current, hrest] at hend
    simp [Token.isEnd, hend] at ht
  obtain ⟨ahead, -, hlen, hrest, -⟩ := h
  rw [hrest, List.eq_nil_of_length_eq_zero hlen, left, List.drop_left, List.nil_append]

/-- If the lists do not differ behind the marker, the places do not. -/
theorem At.eq (h : F.At m c c') (hbehind : F.behind' = F.behind) : c' = c := by
  obtain ⟨ahead, -, -, hrest, rfl⟩ := h
  rw [hbehind, ← hrest]

/-! ### What readers do in two lists -/

variable {α β : Type} {R : α → Nat → Prop} {Q : β → Nat → Prop}

/-- Both readers have read the same, with `m` tokens left before the marker such that `R` holds of
the result and `m`, or both have failed with the same error, which is blamed on a token up to the
marker. -/
inductive Ends (F : Fork) (R : α → Nat → Prop) :
    EStateM.Result ParseError Cursor α → EStateM.Result ParseError Cursor α → Prop
  | ok {a : α} {m : Nat} {d d' : Cursor} (result : R a m) (places : F.At m d d') :
    Ends F R (.ok a d) (.ok a d')
  | error {e : ParseError} {m : Nat} {d d' : Cursor} (blamed : F.Blames e) (places : F.At m d d') :
    Ends F R (.error e d) (.error e d')

theorem Ends.eq {r r' : EStateM.Result ParseError Cursor α} (h : F.Ends R r r')
    (hbehind : F.behind' = F.behind) : r' = r := by
  cases h with
  | ok _ places => rw [places.eq hbehind]
  | error _ places => rw [places.eq hbehind]

/-- At two places, two readers do the same, and the first of them is inside. -/
structure Runs (F : Fork) (R : α → Nat → Prop) (x x' : Parser α) (c c' : Cursor) : Prop where
  ends : F.Ends R (x c) (x' c')
  inside : Parser.Inside F.left F.before.length x c

/-- At all places with `m` tokens before the marker, two readers do the same. -/
def Same (F : Fork) (m : Nat) (R : α → Nat → Prop) (x x' : Parser α) : Prop :=
  ∀ c c', F.At m c c' → F.Runs R x x' c c'

/-- Some token has been consumed, so that fewer than `m` are left before the marker. -/
abbrev Below (m : Nat) : α → Nat → Prop := fun _ k => k < m

/-- At most `m` tokens are left before the marker. -/
abbrev Within (m : Nat) : α → Nat → Prop := fun _ k => k ≤ m

/-- No token has been consumed. -/
abbrev Stays (m : Nat) : α → Nat → Prop := fun _ k => k = m

/-! ### Rules -/

theorem Runs.bind {x x' : Parser α} {f f' : α → Parser β} (hx : F.Runs R x x' c c')
    (hf : ∀ a m, R a m → F.Same m Q (f a) (f' a)) : F.Runs Q (x >>= f) (x' >>= f') c c' := by
  obtain ⟨ends, inside⟩ := hx
  generalize hr : x c = r, hr' : x' c' = r' at ends
  cases ends with
  | ok result places =>
    have hnext := hf _ _ result _ _ places
    constructor
    · rw [Parser.bind_of_ok hr, Parser.bind_of_ok hr']
      exact hnext.ends
    · refine inside.bind fun a d had => ?_
      cases hr.symm.trans had
      exact hnext.inside
  | error blamed places =>
    constructor
    · rw [Parser.bind_of_error hr, Parser.bind_of_error hr']
      exact .error blamed places
    · exact inside.bind fun a d had => nomatch hr.symm.trans had

theorem Same.bind {x x' : Parser α} {f f' : α → Parser β} (hx : F.Same m R x x')
    (hf : ∀ a k, R a k → F.Same k Q (f a) (f' a)) : F.Same m Q (x >>= f) (x' >>= f') :=
  fun c c' hc => (hx c c' hc).bind hf

theorem Runs.mono {P : α → Nat → Prop} {x x' : Parser α} (hx : F.Runs R x x' c c')
    (h : ∀ a k, R a k → P a k) : F.Runs P x x' c c' := by
  obtain ⟨ends, inside⟩ := hx
  refine ⟨?_, inside⟩
  generalize x c = r, x' c' = r' at ends ⊢
  cases ends with
  | ok result places => exact .ok (h _ _ result) places
  | error blamed places => exact .error blamed places

theorem Same.mono {P : α → Nat → Prop} {x x' : Parser α} (hx : F.Same m R x x')
    (h : ∀ a k, R a k → P a k) : F.Same m P x x' :=
  fun c c' hc => (hx c c' hc).mono h

theorem same_pure {a : α} (h : R a m) : F.Same m R (pure a) (pure a) :=
  fun _ _ hc => ⟨.ok h hc, .pure⟩

theorem same_failAt {fault : ParseFault} {t : Token} (ht : F.Ahead t) :
    F.Same m R (failAt fault t : Parser α) (failAt fault t) :=
  fun _ _ hc => ⟨.error ⟨t, ht, rfl⟩ hc, .throw⟩

theorem Same.map {x x' : Parser α} {f : α → β} (hx : F.Same m R x x')
    (hf : ∀ a k, R a k → Q (f a) k) : F.Same m Q (f <$> x) (f <$> x') := by
  rw [← bind_pure_comp, ← bind_pure_comp]
  exact hx.bind fun a k h => same_pure (hf a k h)

theorem Runs.ite {x x' y y' : Parser α} {b : Prop} [Decidable b] (hx : F.Runs R x x' c c')
    (hy : F.Runs R y y' c c') :
    F.Runs R (if b then x else y) (if b then x' else y') c c' := by
  split
  · exact hx
  · exact hy

/-! ### Basic readers -/

/-- After a look at the token ahead, it is known at both places. -/
theorem At.peek_bind {f f' : Token → Parser β} (hc : F.At m c c')
    (h : F.Runs Q (f c.current) (f' c.current) c c') :
    F.Runs Q (peek >>= f) (peek >>= f') c c' := by
  constructor
  · rw [Parser.peek_bind, Parser.peek_bind, hc.current]
    exact h.ends
  · refine Inside.bind (.peek hc.upTo) fun a d had => ?_
    cases had
    exact h.inside

theorem At.peekKind_bind {f f' : Kind → Parser β} (hc : F.At m c c')
    (h : F.Runs Q (f c.current.kind) (f' c.current.kind) c c') :
    F.Runs Q (peekKind >>= f) (peekKind >>= f') c c' := by
  constructor
  · rw [Parser.peekKind_bind, Parser.peekKind_bind, hc.current]
    exact h.ends
  · refine Inside.bind (.peekKind hc.upTo) fun a d had => ?_
    cases had
    exact h.inside

/-- Before the marker, the token behind the one ahead may be looked at. -/
theorem At.peekNextKind_bind {f f' : Kind → Parser β} (hc : F.At m c c')
    (hm : 0 < m) (h : F.Runs Q (f c.nextKind) (f' c.nextKind) c c') :
    F.Runs Q (peekNextKind >>= f) (peekNextKind >>= f') c c' := by
  obtain ⟨t, ahead, ⟨used, hused⟩, -, -, hrest, rfl⟩ := hc.exists_cons hm
  have hnext : ({ c with rest := t :: ahead ++ F.marker :: F.behind' } : Cursor).nextKind =
      c.nextKind := by
    rw [Cursor.nextKind, Cursor.nextKind, hrest]
    cases ahead <;> rfl
  constructor
  · rw [Parser.peekNextKind_bind, Parser.peekNextKind_bind, hnext]
    exact h.ends
  · refine Inside.bind (.peekNextKind (k := used.length) ?_ ?_) fun a d had => ?_
    · simp [← hused]
    · rw [hrest, left, ← hused, List.append_assoc, List.drop_left]
    · cases had
      exact h.inside

/-- Before the marker, the token ahead is consumed. -/
theorem same_advance_ahead (hm : 0 < m) :
    F.Same m (fun t k => F.Ahead t ∧ k < m) advance advance := by
  intro c c' hc
  have hahead := hc.ahead
  have hinside := hc.upTo
  obtain ⟨t, ahead, hsuffix, hlen, ht, hrest, rfl⟩ := hc.exists_cons hm
  have hcurrent : c.current = t := by simp [Cursor.current, hrest]
  refine ⟨?_, .advance hinside⟩
  rw [Parser.advance, Parser.advance, hrest]
  simp only [List.cons_append, ht]
  refine .ok (m := ahead.length) ⟨hcurrent ▸ hahead, by omega⟩ ⟨ahead, ?_, rfl, rfl, rfl⟩
  exact (List.suffix_cons t ahead).trans hsuffix

theorem same_advance (hm : 0 < m) : F.Same m (Below m) advance advance :=
  (same_advance_ahead hm).mono fun _ _ h => h.2

theorem At.advance (hc : F.At m c c') (hne : c.current.kind ≠ .endOfInput) :
    F.Runs (Below m) Parser.advance Parser.advance c c' :=
  same_advance (hc.pos hne) _ _ hc

theorem same_intern {text : String} : F.Same m (Stays m) (intern text) (intern text) := by
  rintro c _ ⟨ahead, hsuffix, hlen, hc, rfl⟩
  exact ⟨.ok (rfl) ⟨ahead, hsuffix, hlen, hc, rfl⟩, .intern⟩

theorem same_keepTarget {target : Expr} :
    F.Same m (Stays m) (keepTarget target) (keepTarget target) := by
  rintro c _ ⟨ahead, hsuffix, hlen, hc, rfl⟩
  exact ⟨.ok (rfl) ⟨ahead, hsuffix, hlen, hc, rfl⟩, .keepTarget⟩

theorem same_spanFrom {start : Span} :
    F.Same m (Stays m) (spanFrom start) (spanFrom start) := by
  intro c c' hc
  have hinside := hc.upTo
  obtain ⟨ahead, hsuffix, hlen, hrest, rfl⟩ := hc
  exact ⟨.ok (rfl) ⟨ahead, hsuffix, hlen, hrest, rfl⟩, .spanFrom hinside⟩

theorem same_newExpr {span : Span} : F.Same m (Stays m) (newExpr span) (newExpr span) := by
  rintro c _ ⟨ahead, hsuffix, hlen, hc, rfl⟩
  exact ⟨.ok (rfl) ⟨ahead, hsuffix, hlen, hc, rfl⟩, .newExpr⟩

theorem same_newStmt {start : Span} : F.Same m (Stays m) (newStmt start) (newStmt start) := by
  intro c c' hc
  have hinside := hc.upTo
  obtain ⟨ahead, hsuffix, hlen, hrest, rfl⟩ := hc
  exact ⟨.ok (rfl) ⟨ahead, hsuffix, hlen, hrest, rfl⟩, .newStmt hinside⟩

/-- A token that is accepted is consumed. -/
theorem same_accept (kind : Kind) (hkind : kind ≠ .endOfInput) :
    F.Same m (fun b k => k ≤ m ∧ (b = true → k < m)) (accept kind) (accept kind) := by
  intro c c' hc
  refine hc.peekKind_bind ?_
  split
  · next h =>
    refine (hc.advance (by simp_all)).bind fun _ k hk => same_pure ?_
    exact ⟨Nat.le_of_lt hk, fun _ => hk⟩
  · exact same_pure ⟨Nat.le_refl m, nofun⟩ _ _ hc

theorem same_expect (kind : Kind) {what : Expected} (hkind : kind ≠ .endOfInput) :
    F.Same m (Below m) (expect kind what) (expect kind what) := by
  intro c c' hc
  refine hc.peek_bind ?_
  split
  · next h => exact hc.advance (by simp_all)
  · exact same_failAt hc.ahead _ _ hc

theorem same_identifier {what : Expected} :
    F.Same m (Below m) (identifier what) (identifier what) :=
  (same_expect .identifier nofun).bind fun _ _ h => same_intern.bind fun _ _ h' =>
    same_pure (h' ▸ h)

/-! ### Loops -/

/-- A turn of a loop that goes on consumes a token. -/
def Turn (m : Nat) : Option α → Nat → Prop
  | none, k => k ≤ m
  | some _, k => k < m

theorem same_none : F.Same m (Turn m) (pure (none : Option α)) (pure none) :=
  same_pure (R := Turn m) (Nat.le_refl m)

theorem same_some {a : α} {k : Nat} (h : m < k) :
    F.Same m (Turn k) (pure (some a)) (pure (some a)) :=
  same_pure (R := Turn k) h

/-- Loops that may take more turns than there are tokens before the marker. -/
theorem same_iterate {n : Nat} {step step' : α → Parser (Option α)}
    (hstep : ∀ a, ∀ k ≤ n, F.Same k (Turn k) (step a) (step' a)) {m b b' : Nat} {a : α}
    (hm : m ≤ n) (hb : m < b) (hb' : m < b') :
    F.Same m (Within m) (iterate step b a) (iterate step' b' a) := by
  -- one token less is ahead with each turn, and one turn less is left
  induction b generalizing m a b' with
  | zero => exact absurd hb (Nat.not_lt_zero m)
  | succ b ih =>
    obtain ⟨b', rfl⟩ := Nat.exists_eq_succ_of_ne_zero (Nat.ne_zero_of_lt hb')
    rw [iterate, iterate]
    refine (hstep a m hm).bind fun r k hk => ?_
    cases r with
    | none => exact same_pure hk
    | some a' =>
      have hk : k < m := hk
      refine (ih (m := k) (by omega) (by omega) (by omega)).mono fun _ j hj => ?_
      exact Nat.le_trans hj (Nat.le_of_lt hk)

end Fork

end Lox
