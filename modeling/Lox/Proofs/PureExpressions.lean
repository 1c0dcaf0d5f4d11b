import Lox.Proofs.Identities

/-!
# Pure expressions

An expression without calls and assignments only reads, but for the numbers of the functions that it
makes. A second evaluation reads the same, and the functions that it makes have other numbers. So it
fails in the same way or has an equal value.

* `Expr.isPure`: no calls, no assignments and no writes to fields but in bodies of functions;
* `Value.shift`: a value with a later number, and operators on such values;
* `Step.Renewed`, `eval_renewed`: evaluations from two states that differ in the next number;
* `Expr.OnlyReads`, `Reply.Renewed`: evaluations that change nothing, and results that are equal;
* `State.Reached`: the states of sessions and of their runs;
* `pure_repeatable`.
-/

namespace Lox

variable {α β : Type} {n d : Nat}

/-- No calls, no assignments and no writes to fields, but in bodies of functions. -/
def Expr.isPure : Expr → Bool
  | literal .. | var .. | lambda .. => true
  | group _ e | unary _ _ e | get _ e _ => e.isPure
  | binary _ l _ r | logical _ l _ r => l.isPure && r.isPure
  | assign .. | call .. | set .. => false

/-! ### Values with later numbers -/

/-- The number of a function that is made `d` numbers later, if it is made from the number `n`
on. -/
def shiftId (n d id : Nat) : Nat := if id < n then id else id + d

theorem shiftId_beq (n d i j : Nat) : (shiftId n d i == shiftId n d j) = (i == j) := by
  rw [Bool.eq_iff_iff, beq_iff_eq, beq_iff_eq, shiftId, shiftId]
  split <;> split <;> omega

/-- A value, where functions from the number `n` on are made `d` numbers later. -/
def Value.shift (n d : Nat) : Value → Value
  | function id f => .function (shiftId n d id) f
  | v => v

namespace Value

theorem shift_of_older {v : Value} (h : v.Older n) (d : Nat) : v.shift n d = v := by
  cases v with
  | function id f =>
    have hlt : id < n := h
    rw [shift, shiftId, if_pos hlt]
  | _ => rfl

theorem Plain.shift {v : Value} (h : v.Plain) (n d : Nat) : v.shift n d = v :=
  shift_of_older h.older d

@[simp] theorem type_shift (v : Value) : (v.shift n d).type = v.type := by
  cases v <;> rfl

@[simp] theorem truthy_shift (v : Value) : (v.shift n d).truthy = v.truthy := by
  cases v <;> rfl

/-- Values are equal later on if and only if they are equal. -/
theorem equal?_shift (v w : Value) : (v.shift n d).equal? (w.shift n d) = v.equal? w := by
  cases v with
  | function i f =>
    cases w with
    | function j g => exact congrArg some (shiftId_beq n d i j)
    | _ => rfl
  | _ => cases w <;> rfl

end Value

theorem UnaryOp.apply_shift (op : UnaryOp) (v : Value) : op.apply (v.shift n d) = op.apply v := by
  cases v with
  | function => cases op <;> rfl
  | _ => rfl

theorem BinaryOp.apply_shift (op : BinaryOp) (v w : Value) :
    op.apply (v.shift n d) (w.shift n d) = op.apply v w := by
  cases op with
  | eq | notEq => rw [apply, apply, Value.equal?_shift, Value.type_shift, Value.type_shift]
  | _ =>
    cases v with
    | function => cases w <;> rfl
    | _ =>
      cases w with
      | function => rfl
      | _ => rfl

/-! ### Evaluations from a later number -/

/-- Two steps come to an end without calls. Both change nothing but the next number, which is `d`
more in the second one all the time. -/
inductive Step.Renewed (d : Nat) (s : State) (R : α → β → Prop) : Step α → Step β → Prop
  | done {a : α} {b : β} {n : Nat} (hle : s.nextId ≤ n) (h : R a b) :
    Renewed d s R (.done a { s with nextId := n }) (.done b { s with nextId := n + d })
  | stop {e : RuntimeError} {n : Nat} (hle : s.nextId ≤ n) :
    Renewed d s R (.stop (.error e) { s with nextId := n })
      (.stop (.error e) { s with nextId := n + d })

namespace Step.Renewed

variable {γ δ : Type} {R : α → β → Prop} {Q : γ → δ → Prop} {s : State} {x : Step α} {y : Step β}

theorem of_le {m : Nat} (hle : s.nextId ≤ m) (h : x.Renewed d { s with nextId := m } R y) :
    x.Renewed d s R y := by
  cases h with
  | done hle' hab => exact .done (Nat.le_trans hle hle') hab
  | stop hle' => exact .stop (Nat.le_trans hle hle')

theorem bind {g : α → State → Step γ} {h : β → State → Step δ} (hxy : x.Renewed d s R y)
    (hgh : ∀ a b m, s.nextId ≤ m → R a b →
      (g a { s with nextId := m }).Renewed d s Q (h b { s with nextId := m + d })) :
    (x.bind g).Renewed d s Q (y.bind h) := by
  cases hxy with
  | done hle hab => exact hgh _ _ _ hle hab
  | stop hle => exact .stop hle

theorem blame (hxy : x.Renewed d s R y) (span : Span) :
    (x.adjust (·.blame span) id).Renewed d s R (y.adjust (·.blame span) id) := by
  cases hxy with
  | done hle hab => exact .done hle hab
  | stop hle => exact .stop hle

end Step.Renewed

/-- Two actions do the same from states that store functions with numbers below `n` only, where the
second one starts with a number that is `d` more. -/
def Action.Renewed (n d : Nat) (R : α → β → Prop) (x : Action α) (y : Action β) : Prop :=
  ∀ s, s.Stores (Value.Older n) → n ≤ s.nextId →
    (x s).Renewed d s R (y { s with nextId := s.nextId + d })

/-- Two values are equal but for the numbers of functions from `n` on. -/
abbrev Value.Later (n d : Nat) (v w : Value) : Prop := w = v.shift n d

namespace Action

variable {γ δ : Type} {R : α → β → Prop} {Q : γ → δ → Prop}

theorem renewed_pure {a : α} {b : β} (h : R a b) :
    (pure a : Action α).Renewed n d R (pure b : Action β) :=
  fun s _ _ => .done (Nat.le_refl s.nextId) h

theorem renewed_fail (fault : Fault) :
    (fail fault : Action α).Renewed n d R (fail fault : Action β) :=
  fun s _ _ => .stop (Nat.le_refl s.nextId)

theorem Renewed.bind {x : Action α} {y : Action β} {g : α → Action γ} {h : β → Action δ}
    (hxy : x.Renewed n d R y) (hgh : ∀ a b, R a b → (g a).Renewed n d Q (h b)) :
    (x >>= g).Renewed n d Q (y >>= h) := by
  intro s hs hn
  rw [bind_apply, bind_apply]
  refine (hxy s hs hn).bind fun a b m hle hab => ?_
  have hm : ({ s with nextId := m } : State).Stores (Value.Older n) := ⟨hs.frames, hs.objects⟩
  exact (hgh a b hab _ hm (Nat.le_trans hn hle)).of_le hle

theorem Renewed.blaming {x : Action α} {y : Action β} (hxy : x.Renewed n d R y) (span : Span) :
    (blaming span x).Renewed n d R (blaming span y) :=
  fun s hs hn => (hxy s hs hn).blame span

theorem renewed_ofExcept {F : Fault → Prop} {r : Except Fault Value} (h : Returns F r) :
    (ofExcept r).Renewed n d (Value.Later n d) (ofExcept r) := by
  cases r with
  | ok v => exact renewed_pure (h.1.shift n d).symm
  | error fault => exact renewed_fail fault

theorem renewed_readName (name : String) :
    (readName name).Renewed n d (Value.Later n d) (readName name) := by
  intro s hs _
  cases hv : s.env.lookup name with
  | none =>
    simp only [readName, hv]
    exact .stop (Nat.le_refl s.nextId)
  | some v =>
    simp only [readName, hv]
    exact .done (Nat.le_refl s.nextId)
      (Value.shift_of_older (Environment.stores_lookup hs.frames hv) d).symm

theorem renewed_readField (i : Nat) (name : String) :
    (readField i name).Renewed n d (Value.Later n d) (readField i name) := by
  intro s hs _
  cases hv : (s.objects.getD i ∅).get? name with
  | none =>
    simp only [readField, hv]
    exact .stop (Nat.le_refl s.nextId)
  | some v =>
    simp only [readField, hv]
    exact .done (Nat.le_refl s.nextId) (Value.shift_of_older (hs.objects i name v hv) d).symm

theorem renewed_objectId (v : Value) :
    (objectId v).Renewed n d (· = ·) (objectId (v.shift n d)) := by
  cases v with
  | object id className => exact renewed_pure rfl
  | _ => exact renewed_fail _

/-- The second function is of the same code over the same frames. -/
theorem renewed_newFunction (name : Option String) (params : List String) (body : List Stmt) :
    (newFunction name params body).Renewed n d (Value.Later n d)
      (newFunction name params body) := by
  intro s _ hn
  have hid : shiftId n d s.nextId = s.nextId + d := if_neg (Nat.not_lt.2 hn)
  have hend : s.nextId + d + 1 = s.nextId + 1 + d := Nat.add_right_comm _ _ _
  show Step.Renewed d s _
    (.done (Value.function s.nextId ⟨name, params, body, s.env.scope, s.program⟩)
      { s with nextId := s.nextId + 1 })
    (.done (Value.function (s.nextId + d) ⟨name, params, body, s.env.scope, s.program⟩)
      { s with nextId := s.nextId + d + 1 })
  rw [hend]
  exact .done (Nat.le_succ _) (by rw [Value.Later, Value.shift, hid])

end Action

/-- A pure expression has the value that it has from a later number on, or fails in the same way. -/
theorem eval_renewed : ∀ {e : Expr}, e.isPure = true →
    (eval e).Renewed n d (Value.Later n d) (eval e)
  | .literal _ v, _ => by
    rw [eval]
    exact Action.renewed_pure (v.plain_value.shift n d).symm
  | .group _ e, h => by
    rw [eval]
    exact (eval_renewed (e := e) h).blaming _
  | .unary _ op e, h => by
    rw [eval]
    refine ((eval_renewed (e := e) h).bind fun v _ hv => ?_).blaming _
    rw [hv, op.apply_shift]
    exact Action.renewed_ofExcept (op.returns_apply v)
  | .binary _ l op r, h => by
    obtain ⟨hl, hr⟩ := Bool.and_eq_true_iff.1 h
    rw [eval]
    refine ((eval_renewed hl).bind fun v _ hv => (eval_renewed hr).bind fun w _ hw => ?_).blaming _
    rw [hv, hw, op.apply_shift]
    exact Action.renewed_ofExcept (op.returns_apply v w)
  | .logical _ l op r, h => by
    obtain ⟨hl, hr⟩ := Bool.and_eq_true_iff.1 h
    rw [eval]
    refine ((eval_renewed hl).bind fun v _ hv => ?_).blaming _
    have hdecides : op.decides (v.shift n d) = op.decides v := by
      cases op <;> simp [LogicalOp.decides]
    rw [hv, hdecides]
    split
    · exact Action.renewed_pure rfl
    · exact eval_renewed hr
  | .var _ x, _ => by
    rw [eval]
    exact (Action.renewed_readName x).blaming _
  | .lambda _ params body, _ => by
    rw [eval]
    exact Action.renewed_newFunction none params body
  | .get _ e x, h => by
    rw [eval]
    refine ((eval_renewed (e := e) h).bind fun v _ hv => ?_).blaming _
    rw [hv]
    refine (Action.renewed_objectId v).bind fun id _ hid => ?_
    rw [← hid]
    exact Action.renewed_readField id x

/-! ### Evaluations that only read -/

/-- From a state, an expression ends with the result `r` in the state `t` and in no other way, and
nothing has changed but the next number. -/
structure Expr.OnlyReads (e : Expr) (s : State) (r : Reply) (t : State) : Prop where
  ends : ∀ r' t', e.Ends s r' t' ↔ r' = r ∧ t' = t
  unchanged : t = { s with nextId := t.nextId }

/-- A value of an evaluation, in which the numbers from `n` to `m` were given out, and an equal
value of the next one: the same, if it was there before, and otherwise a new function of the same
code over the same frames. -/
inductive Value.Renewed (n m : Nat) : Value → Value → Prop
  | same {v : Value} (h : v.Older n) : Renewed n m v v
  | function {i j : Nat} {f : Function} (hi : n ≤ i ∧ i < m) (hj : m ≤ j) :
    Renewed n m (.function i f) (.function j f)

/-- Two evaluations have equal values, or fail with the same fault at the same span. -/
inductive Reply.Renewed (n m : Nat) : Reply → Reply → Prop
  | ok {v w : Value} (h : v.Renewed n m w) : Renewed n m (.ok v) (.ok w)
  | error (e : RuntimeError) : Renewed n m (.error (.error e)) (.error (.error e))

theorem Value.renewed_shift {v : Value} {m : Nat} (hv : v.Older m) (hd : n + d = m) :
    v.Renewed n m (v.shift n d) := by
  cases v with
  | function i f =>
    by_cases hi : i < n
    · rw [shift, shiftId, if_pos hi]
      exact .same hi
    · rw [shift, shiftId, if_neg hi]
      exact .function ⟨Nat.not_lt.1 hi, hv⟩ (by omega)
  | _ => exact .same trivial

namespace Expr

variable {e : Expr} {s : State}

theorem onlyReads_of_run {r : Reply} {m : Nat} (hr : r ≠ .error .outOfFuel)
    (h : ∀ fuel, (eval e).run fuel s = (r, { s with nextId := m })) :
    e.OnlyReads s r { s with nextId := m } where
  ends r' t := by
    constructor
    · rintro ⟨-, fuel, hrun⟩
      exact Prod.mk.inj (hrun.symm.trans (h fuel))
    · rintro ⟨rfl, rfl⟩
      exact ⟨hr, 0, h 0⟩
  unchanged := rfl

theorem onlyReads_of_done {v : Value} {m : Nat} (h : eval e s = .done v { s with nextId := m }) :
    e.OnlyReads s (.ok v) { s with nextId := m } :=
  onlyReads_of_run (by simp) fun fuel => by rw [Action.run, h, Step.run]

theorem onlyReads_of_stop {e' : RuntimeError} {m : Nat}
    (h : eval e s = .stop (.error e') { s with nextId := m }) :
    e.OnlyReads s (.error (.error e')) { s with nextId := m } :=
  onlyReads_of_run (by simp) fun fuel => by rw [Action.run, h, Step.run]

end Expr

/-- How two steps end, the second of which has other numbers. -/
theorem Step.Renewed.ends {s : State} {R : α → β → Prop} {x : Step α} {y : Step β}
    (h : x.Renewed d s R y) :
    (∃ a b m, s.nextId ≤ m ∧ R a b ∧ x = .done a { s with nextId := m } ∧
      y = .done b { s with nextId := m + d }) ∨
    ∃ e m, s.nextId ≤ m ∧ x = .stop (.error e) { s with nextId := m } ∧
      y = .stop (.error e) { s with nextId := m + d } := by
  cases h with
  | done hle hab => exact .inl ⟨_, _, _, hle, hab, rfl, rfl⟩
  | stop hle => exact .inr ⟨_, _, hle, rfl, rfl⟩

/-- From a state that holds functions with numbers that were given out only, a pure expression does
the same twice. -/
theorem State.Fresh.repeats {s : State} (hs : s.Fresh) {e : Expr} (he : e.isPure = true) :
    ∃ r t r' t', e.OnlyReads s r t ∧ e.OnlyReads t r' t' ∧ r.Renewed s.nextId t.nextId r' ∧
      t.Fresh := by
  have hrenewed (d : Nat) := eval_renewed (d := d) he s hs (Nat.le_refl _)
  -- the first evaluation says by how much the number is later in the second one
  rcases (hrenewed 0).ends with ⟨v, -, m, hle, -, hx, -⟩ | ⟨e', m, hle, hx, -⟩
  · obtain ⟨d, rfl⟩ := Nat.exists_eq_add_of_le hle
    have hreads := Expr.onlyReads_of_done hx
    obtain ⟨ht, -, hv⟩ := ((hreads.ends _ _).2 ⟨rfl, rfl⟩).ages hs
    rcases (hrenewed d).ends with ⟨v', w, m, -, hw, hx', hy⟩ | ⟨e', m, -, hx', -⟩
    · obtain ⟨rfl, -⟩ := Step.done.inj (hx.symm.trans hx')
      rw [hw] at hy
      exact ⟨_, _, _, _, hreads, Expr.onlyReads_of_done hy,
        .ok (Value.renewed_shift (hv v rfl) rfl), ht⟩
    · cases hx.symm.trans hx'
  · obtain ⟨d, rfl⟩ := Nat.exists_eq_add_of_le hle
    have hreads := Expr.onlyReads_of_stop hx
    obtain ⟨ht, -, -⟩ := ((hreads.ends _ _).2 ⟨rfl, rfl⟩).ages hs
    rcases (hrenewed d).ends with ⟨v, w, m, -, -, hx', -⟩ | ⟨e'', m, -, hx', hy⟩
    · cases hx.symm.trans hx'
    · obtain ⟨hstop, -⟩ := Step.stop.inj (hx.symm.trans hx')
      obtain rfl := Stop.error.inj hstop
      exact ⟨_, _, _, _, hreads, Expr.onlyReads_of_stop hy, .error e', ht⟩

/-- **Pure expressions are pure and repeatable.** In every state of a session or of a run in it, an
expression without calls and assignments has one end, after which no frame, no object, no output,
and neither the scope nor the program nor the number of running bodies is another. All functions
that the state holds have numbers that were given out. The next evaluation ends in the same way,
with the same fault at the same span or with an equal value: of a function that the first one made,
it makes a new one, of the same code over the same frames. -/
theorem pure_repeatable {s : State} (hs : s.Reached) {e : Expr} (he : e.isPure = true) :
    ∃ r t r' t', e.OnlyReads s r t ∧ e.OnlyReads t r' t' ∧ r.Renewed s.nextId t.nextId r' ∧
      t.Fresh :=
  hs.fresh.repeats he

/-- An object with a field, and a function. -/
def objectSource : String := "class Point {} var p = Point(); p.x = 3; fun f() { return p; }"

/-- A field is read and compared, and then a function is made. -/
def readThenMake : Expr :=
  let mark : Mark := ⟨0, .point 0⟩
  .logical mark (.binary mark (.get mark (.var mark "p") "x") .eq (.literal mark (.int 3))) .and
    (.lambda mark [] [])

/-- The number of a function that is a result. -/
def functionId? : Reply → Option Nat
  | .ok (.function id _) => some id
  | _ => none

theorem exists_of_functionId? {r : Reply} {i : Nat} (h : functionId? r = some i) :
    ∃ f, r = .ok (.function i f) := by
  unfold functionId? at h
  split at h
  · exact ⟨_, by rw [Option.some.inj h]⟩
  · cases h

/-- The expression makes a function twice, of the same code, and nothing else. -/
theorem pure_repeatable_readThenMake : ∃ (o : Outcome) (i j : Nat) (f : Function) (t t' : State),
    (Session.start 0).Ends objectSource o ∧ o.problem = none ∧
    readThenMake.OnlyReads o.session.state (.ok (.function i f)) t ∧
    readThenMake.OnlyReads t (.ok (.function j f)) t' ∧ i < j := by
  have hrun : ((Session.start 0).run 9 objectSource).map (fun o =>
      (o.problem, o.session.state.nextId,
        functionId? ((eval readThenMake).run 1 o.session.state).1)) = some (none, 4, some 4) := by
    decide +kernel
  obtain ⟨o, ho, hshown⟩ := Option.map_eq_some_iff.1 hrun
  obtain ⟨hproblem, hshown⟩ := Prod.mk.inj hshown
  obtain ⟨hnext, hid⟩ := Prod.mk.inj hshown
  obtain ⟨r, t, r', t', hreads, hreads', hrenewed, -⟩ :=
    pure_repeatable ⟨0, o.session, .run .refl ⟨9, ho⟩, .inl rfl⟩ (e := readThenMake) rfl
  obtain ⟨f, hfirst⟩ := exists_of_functionId? hid
  have hends : readThenMake.Ends o.session.state (.ok (.function 4 f)) _ :=
    ⟨nofun, 1, Prod.ext hfirst rfl⟩
  obtain ⟨rfl, -⟩ := (hreads.ends _ _).1 hends
  cases hrenewed with
  | ok hrenewed =>
    cases hrenewed with
    | same hold =>
      have hlt : 4 < o.session.state.nextId := hold
      omega
    | @function _ j _ hi hj =>
      exact ⟨o, 4, j, f, t, t', ⟨9, ho⟩, hproblem, hreads, hreads', by omega⟩

end Lox
