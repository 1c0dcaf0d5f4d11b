import Lox.Proofs.Reading

/-!
# Taking symbols

What a reader does when certain symbols are ahead. Only the symbols of the tokens matter, since
nothing else decides how a reader goes on.

* `Cursor.ahead`: the symbols ahead;
* `Takes`: from a place, a reader accepts something with a property and leaves certain symbols
  ahead;
* the basic readers, each before the rest of a sequence;
* `iterate_stop`, `iterate_turn`, `iterate_takes`: loops.
-/

namespace Lox

/-- The kind of the first of several symbols; behind the last one there is the end of input. -/
def headKind (ss : List Symbol) : Kind := (ss.head?.map Symbol.kind).getD .endOfInput

@[simp] theorem headKind_nil : headKind [] = .endOfInput := rfl

@[simp] theorem headKind_cons (s : Symbol) (ss : List Symbol) : headKind (s :: ss) = s.kind := rfl

@[simp] theorem Symbol.kind_fixed (kind : Kind) : (fixed kind).kind = kind := rfl

@[simp] theorem Symbol.kind_name (x : String) : (name x).kind = .identifier := rfl

namespace Cursor

/-- The symbols ahead. -/
def ahead (c : Cursor) : List Symbol := c.rest.map Token.symbol

theorem kind_current (c : Cursor) : c.current.kind = headKind c.ahead := by
  rw [current, ahead]
  cases c.rest <;> simp [Token.endOfInput]

theorem nextKind_eq (c : Cursor) : c.nextKind = headKind c.ahead.tail := by
  rw [nextKind, ahead]
  rcases c.rest with _ | ⟨t, _ | ⟨u, rest⟩⟩ <;> simp

theorem symbol_current {c : Cursor} {s : Symbol} {ss : List Symbol} (h : c.ahead = s :: ss) :
    c.current.symbol = s := by
  obtain ⟨t, rest, hrest, rfl, -⟩ := List.map_eq_cons_iff.1 h
  simp [current, hrest]

theorem length_rest (c : Cursor) : c.rest.length = c.ahead.length := by
  rw [ahead, List.length_map]

variable {c d : Cursor} {ss mid : List Symbol} {s : Symbol} {n : Nat}

theorem length_lt_of_cons (hc : c.ahead = s :: mid) (hd : d.ahead = mid)
    (hn : c.ahead.length < n + 1) : d.ahead.length < n := by
  rw [hc, List.length_cons] at hn
  rw [hd]
  exact Nat.lt_of_succ_lt_succ hn

theorem length_le_of_append (hc : c.ahead = ss ++ mid) (hd : d.ahead = mid) :
    d.ahead.length ≤ c.ahead.length := by
  rw [hc, hd, List.length_append]
  exact Nat.le_add_left _ _

end Cursor

namespace Parser

variable {α β : Type} {c d : Cursor} {tail mid : List Symbol}

/-- From `c`, a reader accepts something with the property `P`, and has the symbols `tail` ahead
then. -/
def Takes (p : Parser α) (c : Cursor) (P : α → Prop) (tail : List Symbol) : Prop :=
  ∃ a d, p c = .ok a d ∧ P a ∧ d.ahead = tail

section Takes

variable {P : α → Prop} {Q : β → Prop}

theorem Takes.mono {p : Parser α} {P' : α → Prop} (h : Takes p c P tail) (hP : ∀ a, P a → P' a) :
    Takes p c P' tail := by
  obtain ⟨a, d, hp, ha, hd⟩ := h
  exact ⟨a, d, hp, hP a ha, hd⟩

theorem Takes.bind {x : Parser α} {f : α → Parser β} (hx : Takes x c P mid)
    (hf : ∀ a d, P a → d.ahead = mid → Takes (f a) d Q tail) : Takes (x >>= f) c Q tail := by
  obtain ⟨a, d, hx, ha, hd⟩ := hx
  obtain ⟨b, e, hf, hb, he⟩ := hf a d ha hd
  exact ⟨b, e, bind_eq_ok.2 ⟨a, d, hx, hf⟩, hb, he⟩

theorem Takes.map {x : Parser α} {f : α → β} (hx : Takes x c (fun a => Q (f a)) tail) :
    Takes (f <$> x) c Q tail := by
  obtain ⟨a, d, hx, ha, hd⟩ := hx
  exact ⟨f a, d, map_eq_ok.2 ⟨a, hx, rfl⟩, ha, hd⟩

theorem takes_pure {a : α} (ha : P a) (hc : c.ahead = tail) : Takes (pure a) c P tail :=
  ⟨a, c, rfl, ha, hc⟩

/-! ### Basic readers -/

theorem advance_eq_ok {s : Symbol} (hc : c.ahead = s :: tail) (hs : s.kind ≠ .endOfInput) :
    ∃ d, advance c = .ok c.current d ∧ d.ahead = tail := by
  obtain ⟨t, rest, hrest, rfl, rfl⟩ := List.map_eq_cons_iff.1 hc
  have hcur : c.current = t := by simp [Cursor.current, hrest]
  obtain ⟨rest', hrest', hadv⟩ := advance_eq (c := c) (by rwa [hcur, ← Token.kind_symbol])
  rw [hrest] at hrest'
  exact ⟨_, hadv, congrArg (List.map Token.symbol) (List.cons.inj hrest').2.symm⟩

/-- A reader that accepts something, before the rest of a sequence. -/
theorem Takes.of_eq_ok {x : Parser α} {f : α → Parser β} {a : α} (hx : x c = .ok a d)
    (hf : Takes (f a) d Q tail) : Takes (x >>= f) c Q tail := by
  obtain ⟨b, e, hf, hb, he⟩ := hf
  exact ⟨b, e, bind_eq_ok.2 ⟨a, d, hx, hf⟩, hb, he⟩

theorem advance_bind {s : Symbol} {f : Token → Parser β} (hc : c.ahead = s :: mid)
    (hs : s.kind ≠ .endOfInput) (hf : ∀ d, d.ahead = mid → Takes (f c.current) d Q tail) :
    Takes (advance >>= f) c Q tail := by
  obtain ⟨d, hadv, hd⟩ := advance_eq_ok hc hs
  exact .of_eq_ok hadv (hf d hd)

theorem advance_bind_fixed {kind : Kind} {f : Token → Parser β}
    (hc : c.ahead = .fixed kind :: mid) (hk : kind.isMark)
    (hf : ∀ t d, d.ahead = mid → Takes (f t) d Q tail) : Takes (advance >>= f) c Q tail :=
  advance_bind hc (Kind.ne_endOfInput_of_isMark hk) (hf _)

theorem accept_bind {kind : Kind} {f : Bool → Parser β} (hc : c.ahead = .fixed kind :: mid)
    (hk : kind.isMark) (hf : ∀ d, d.ahead = mid → Takes (f true) d Q tail) :
    Takes (accept kind >>= f) c Q tail := by
  obtain ⟨d, hadv, hd⟩ := advance_eq_ok hc (Kind.ne_endOfInput_of_isMark hk)
  have haccept : accept kind c = .ok true d := by
    rw [accept, peekKind_bind, if_pos (by simp [c.kind_current, hc])]
    exact bind_eq_ok.2 ⟨_, d, hadv, rfl⟩
  exact .of_eq_ok haccept (hf d hd)

theorem accept_eq_ok_of_ne {kind : Kind} (hc : headKind c.ahead ≠ kind) :
    accept kind c = .ok false c := by
  rw [accept, peekKind_bind, if_neg (by simpa [c.kind_current] using hc)]
  rfl

theorem accept_bind_of_ne {kind : Kind} {f : Bool → Parser β} (hc : headKind c.ahead ≠ kind)
    (hf : Takes (f false) c Q tail) : Takes (accept kind >>= f) c Q tail :=
  .of_eq_ok (accept_eq_ok_of_ne hc) hf

theorem expect_eq_ok {s : Symbol} {what : Expected} (hc : c.ahead = s :: tail)
    (hs : s.kind ≠ .endOfInput) : ∃ d, expect s.kind what c = .ok c.current d ∧ d.ahead = tail := by
  obtain ⟨d, hadv, hd⟩ := advance_eq_ok hc hs
  refine ⟨d, ?_, hd⟩
  rw [expect, peek_bind, if_pos (by simp [c.kind_current, hc]), hadv]

theorem expect_bind {kind : Kind} {what : Expected} {f : Token → Parser β}
    (hc : c.ahead = .fixed kind :: mid) (hk : kind.isMark)
    (hf : ∀ t d, d.ahead = mid → Takes (f t) d Q tail) :
    Takes (expect kind what >>= f) c Q tail := by
  obtain ⟨d, hexpect, hd⟩ := expect_eq_ok hc (Kind.ne_endOfInput_of_isMark hk)
  exact .of_eq_ok hexpect (hf _ d hd)

theorem lexeme_of_symbol {t : Token} {x : String} (h : t.symbol = .name x) : t.lexeme = x := by
  have hk : t.kind = .identifier := by rw [← t.kind_symbol, h, Symbol.kind_name]
  simpa [Token.symbol, hk, Symbol.name] using h

theorem identifier_eq_ok {what : Expected} {x : String} (hc : c.ahead = .name x :: tail) :
    ∃ d, identifier what c = .ok x d ∧ d.ahead = tail := by
  obtain ⟨d, hexpect, hd⟩ := expect_eq_ok hc (by simp)
  have hx : c.current.lexeme = x := lexeme_of_symbol (Cursor.symbol_current hc)
  refine ⟨{ d with names := d.names.insert x }, bind_eq_ok.2 ⟨_, d, hexpect, ?_⟩, hd⟩
  rw [hx]
  rfl

theorem identifier_bind {what : Expected} {x : String} {f : String → Parser β}
    (hc : c.ahead = .name x :: mid) (hf : ∀ d, d.ahead = mid → Takes (f x) d Q tail) :
    Takes (identifier what >>= f) c Q tail := by
  obtain ⟨d, hidentifier, hd⟩ := identifier_eq_ok hc
  exact .of_eq_ok hidentifier (hf d hd)

theorem peek_bind_takes {f : Token → Parser β} (hf : Takes (f c.current) c Q tail) :
    Takes (peek >>= f) c Q tail :=
  .of_eq_ok rfl hf

theorem peekKind_bind_takes {f : Kind → Parser β} (hf : Takes (f (headKind c.ahead)) c Q tail) :
    Takes (peekKind >>= f) c Q tail :=
  .of_eq_ok (a := headKind c.ahead) (d := c) (by rw [← c.kind_current]; rfl) hf

theorem newExpr_takes {span : Span} {F : Mark → β} (hF : ∀ m, Q (F m)) (hc : c.ahead = tail) :
    Takes (newExpr span >>= fun m => pure (F m)) c Q tail :=
  ⟨_, _, rfl, hF _, hc⟩

theorem newExprFrom_takes {start : Span} {F : Mark → β} (hF : ∀ m, Q (F m))
    (hc : c.ahead = tail) :
    Takes (spanFrom start >>= fun span => newExpr span >>= fun m => pure (F m)) c Q tail :=
  ⟨_, _, rfl, hF _, hc⟩

theorem newStmt_takes {start : Span} {F : Mark → β} (hF : ∀ m, Q (F m)) (hc : c.ahead = tail) :
    Takes (newStmt start >>= fun m => pure (F m)) c Q tail :=
  ⟨_, _, rfl, hF _, hc⟩

end Takes

/-! ### Loops -/

section Loops

variable {step : α → Parser (Option α)} {a b : α} {n : Nat}

theorem iterate_stop (h : step a c = .ok none c) : iterate step n a c = .ok a c := by
  cases n with
  | zero => rfl
  | succ n => exact bind_eq_ok.2 ⟨none, c, h, rfl⟩

theorem iterate_turn (h : step a c = .ok (some b) d) :
    iterate step (n + 1) a c = iterate step n b d := by
  show EStateM.bind (step a) _ c = _
  rw [EStateM.bind, h]

end Loops

/-- A loop over several items, each of which is written with at least one symbol. `I` says what is
found after some of them. -/
theorem iterate_takes {step : α → Parser (Option α)} {Y : β → List Symbol} {I : List β → α → Prop}
    {items : List β} {n : Nat} (hY : ∀ x ∈ items, Y x ≠ [])
    (turn : ∀ done x rest a d, items = done ++ x :: rest → I done a →
      d.ahead = Y x ++ (rest.flatMap Y ++ tail) → d.ahead.length ≤ c.ahead.length →
      Takes (step a) d (fun r => ∃ b, r = some b ∧ I (done ++ [x]) b) (rest.flatMap Y ++ tail))
    (stop : ∀ a d, I items a → d.ahead = tail → step a d = .ok none d)
    {a : α} (ha : I [] a) (hc : c.ahead = items.flatMap Y ++ tail) (hn : c.ahead.length ≤ n) :
    Takes (iterate step n a) c (I items) tail := by
  suffices ∀ rest done a d k, items = done ++ rest → I done a → d.ahead = rest.flatMap Y ++ tail →
      d.ahead.length ≤ k → d.ahead.length ≤ c.ahead.length →
      Takes (iterate step k a) d (I items) tail from
    this items [] a c n rfl ha hc hn (Nat.le_refl _)
  intro rest
  induction rest with
  | nil =>
    rintro done a d k rfl ha hd - -
    rw [List.append_nil] at *
    exact ⟨a, d, iterate_stop (stop a d ha hd), ha, hd⟩
  | cons x rest ih =>
    intro done a d k hitems ha hd hk hle
    rw [List.flatMap_cons, List.append_assoc] at hd
    obtain ⟨r, e, hstep, ⟨b, rfl, hb⟩, he⟩ := turn done x rest a d hitems ha hd hle
    have hx : Y x ≠ [] := hY x (by simp [hitems])
    have hpos := List.length_pos_iff.2 hx
    have hlen : d.ahead.length = (Y x).length + e.ahead.length := by
      rw [hd, he, List.length_append]
    obtain ⟨k, rfl⟩ : ∃ m, k = m + 1 := ⟨k - 1, by omega⟩
    obtain ⟨b', e', hloop, hb', he'⟩ := ih (done ++ [x]) b e k (by simpa using hitems) hb he
      (by omega) (by omega)
    exact ⟨b', e', (iterate_turn hstep).trans hloop, hb', he'⟩

end Parser

end Lox
