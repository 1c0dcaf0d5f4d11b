import Lox.Proofs.ExecutionPoints

/-!
# Identities are given out once

Functions are told apart by the numbers that they are made with. A state knows the next number, and
every function that it holds has a smaller one. So a function that is made is a new one.

* `Value.Older`, `State.Fresh`: values with a number below a bound, and states that hold no others;
* `Ages`, `aging`, `seniority`: what actions leave behind, as a contract of calls and as a logic;
* `Expr.Ends.ages`, `Stmt.Ends.ages`: how expressions and statements end;
* `State.Reached.fresh`: the states of sessions and of their runs.
-/

namespace Lox

variable {α β : Type} {n m : Nat}

/-! ### Numbers of values -/

/-- A function whose number is below a bound, or another value. -/
def Value.Older (n : Nat) : Value → Prop
  | function id _ => id < n
  | _ => True

namespace Value

theorem Older.mono {v : Value} (h : v.Older n) (hle : n ≤ m) : v.Older m := by
  cases v with
  | function id f => exact Nat.lt_of_lt_of_le h hle
  | _ => trivial

theorem Plain.older {v : Value} (h : v.Plain) : v.Older n := by
  cases v with
  | function => cases h
  | _ => trivial

end Value

/-- The functions that a state holds have numbers that were given out. -/
def State.Fresh (s : State) : Prop := s.Stores (Value.Older s.nextId)

theorem State.Fresh.of_le {s t : State} (h : s.Fresh) (hframes : t.env.frames = s.env.frames)
    (hobjects : t.objects = s.objects) (hle : s.nextId ≤ t.nextId) : t.Fresh := by
  have hstores := State.Stores.mono h fun _ hv => hv.mono hle
  exact ⟨hframes ▸ hstores.frames, hobjects ▸ hstores.objects⟩

/-! ### Actions -/

/-- What an action leaves behind, unless it gave up: no number was taken back, all functions have
numbers that were given out, and a result is as `R` says of the numbers so far. -/
def Ages (n : Nat) (R : Nat → α → Prop) (r : Except Stop α) (t : State) : Prop :=
  r ≠ .error .outOfFuel → t.Fresh ∧ n ≤ t.nextId ∧ ∀ a, r = .ok a → R t.nextId a

/-- The numbers of the arguments of a call were given out. -/
def aging : Contract where
  pre _ args s := s.Fresh ∧ ∀ v ∈ args, v.Older s.nextId
  post _ _ s r t := Ages s.nextId Value.Older r t

/-- From states in which `n` is the next number, an action gives out numbers once. -/
def Action.Ages (n : Nat) (R : Nat → α → Prop) (x : Action α) : Prop :=
  ∀ s, s.Fresh → s.nextId = n → (x s).Meets aging (Lox.Ages n R)

theorem Ages.mono {R : Nat → α → Prop} {r : Except Stop α} {t : State} (h : Ages m R r t)
    (hle : n ≤ m) : Ages n R r t := fun hr =>
  have ⟨ht, hm, ha⟩ := h hr
  ⟨ht, Nat.le_trans hle hm, ha⟩

theorem Ages.of_ok {R : Nat → α → Prop} {a : α} {s : State} (hs : s.Fresh) (hn : s.nextId = n)
    (h : R n a) : Ages n R (.ok a) s := fun _ =>
  ⟨hs, Nat.le_of_eq hn.symm, fun _ heq => Except.ok.inj heq ▸ hn ▸ h⟩

theorem Ages.of_error {R : Nat → α → Prop} {Q : Nat → β → Prop} {e : Stop} {t : State}
    (h : Ages n R (.error e : Except Stop α) t) : Ages n Q (.error e : Except Stop β) t := fun hr =>
  have ⟨ht, hle, _⟩ := h (fun heq => hr (by cases heq; rfl))
  ⟨ht, hle, nofun⟩

namespace Action

theorem ages_stopWith {R : Nat → α → Prop} (reason : Stop) :
    (stopWith reason : Action α).Ages n R :=
  fun _ hs hn _ => ⟨hs, Nat.le_of_eq hn.symm, nofun⟩

theorem ages_fail {R : Nat → α → Prop} (fault : Fault) : (fail fault : Action α).Ages n R :=
  ages_stopWith _

theorem Ages.bind {R : Nat → α → Prop} {Q : Nat → β → Prop} {x : Action α} {g : α → Action β}
    (hx : x.Ages n R) (hg : ∀ m a, n ≤ m → R m a → (g a).Ages m Q) : (x >>= g).Ages n Q := by
  intro s hs hn
  rw [bind_apply]
  refine (hx s hs hn).bind (fun a t h => ?_) fun e t h => h.of_error
  obtain ⟨ht, hle, ha⟩ := h nofun
  exact (hg t.nextId a hle (ha a rfl) t ht rfl).mono fun r u hu => hu.mono hle

theorem Ages.blaming {R : Nat → α → Prop} {x : Action α} (hx : x.Ages n R) (span : Span) :
    (blaming span x).Ages n R := by
  intro s hs hn
  refine (hx s hs hn).adjust (fun _ _ h => h) fun e t h hr => ?_
  cases e with
  | error e =>
    obtain ⟨ht, hle, -⟩ := h nofun
    exact ⟨ht, hle, nofun⟩
  | outOfFuel => exact absurd rfl hr

/-- The scope, the depth and the program do not matter. -/
theorem Ages.adjust {R : Nat → α → Prop} {x : Step α} {after : State → State}
    (hx : x.Meets aging (Lox.Ages n R)) (hframes : ∀ t, (after t).env.frames = t.env.frames)
    (hobjects : ∀ t, (after t).objects = t.objects) (hid : ∀ t, (after t).nextId = t.nextId) :
    (x.adjust id after).Meets aging (Lox.Ages n R) := by
  have hafter (r : Except Stop α) (t : State) (h : Lox.Ages n R r t) :
      Lox.Ages n R r (after t) := by
    intro hr
    obtain ⟨ht, hle, ha⟩ := h hr
    rw [hid]
    exact ⟨ht.of_le (hframes t) (hobjects t) (Nat.le_of_eq (hid t).symm), hle, ha⟩
  exact hx.adjust (fun a t => hafter (.ok a) t) fun e t => hafter (.error e) t

theorem ages_block {R : Nat → α → Prop} {x : Action α} (hx : ∀ m, n ≤ m → x.Ages m R) :
    (within .push x).Ages n R := by
  intro s hs hn
  have hpush : ({ s with env := s.env.push } : State).Fresh := ⟨hs.frames.push, hs.objects⟩
  exact Ages.adjust (hx n (Nat.le_refl n) _ hpush hn) (fun _ => rfl) (fun _ => rfl) fun _ => rfl

theorem ages_readName (name : String) : (readName name).Ages n Value.Older := by
  intro s hs hn
  rw [readName]
  split
  · next v hv => exact .of_ok hs hn (hn ▸ Environment.stores_lookup hs.frames hv)
  · exact ages_fail _ s hs hn

theorem ages_defineName (name : String) {value : Value} (h : value.Older n) :
    (defineName name value).Ages n fun _ _ => True := by
  rintro s hs rfl
  have ht : ({ s with env := s.env.define name value } : State).Fresh :=
    ⟨Environment.stores_define hs.frames name h, hs.objects⟩
  exact .of_ok ht rfl trivial

theorem ages_assignName (name : String) {value : Value} (h : value.Older n) :
    (assignName name value).Ages n fun _ _ => True := by
  rintro s hs rfl
  rw [assignName]
  split
  · next i _ =>
    have ht : ({ s with env := s.env.write i name value } : State).Fresh :=
      ⟨hs.frames.insert i name h, hs.objects⟩
    exact .of_ok ht rfl trivial
  · exact ages_fail _ s hs rfl

theorem ages_printLine (text : String) : (printLine text).Ages n fun _ _ => True := by
  rintro s hs rfl
  have ht : ({ s with output := s.output ++ text ++ "\n" } : State).Fresh :=
    ⟨hs.frames, hs.objects⟩
  exact .of_ok ht rfl trivial

theorem ages_newId : newId.Ages n fun _ _ => True := by
  rintro s hs rfl
  exact fun _ => ⟨hs.of_le rfl rfl (Nat.le_succ _), Nat.le_succ _, fun _ _ => trivial⟩

/-- A new number is above all that were given out. -/
theorem ages_newFunction (name : Option String) (params : List String) (body : List Stmt) :
    (newFunction name params body).Ages n Value.Older := by
  rintro s hs rfl
  exact fun _ => ⟨hs.of_le rfl rfl (Nat.le_succ _), Nat.le_succ _, fun _ heq =>
    Except.ok.inj heq ▸ Nat.lt_succ_self s.nextId⟩

theorem ages_readField (i : Nat) (name : String) : (readField i name).Ages n Value.Older := by
  intro s hs hn
  rw [readField]
  split
  · next v hv => exact .of_ok hs hn (hn ▸ hs.objects i name v hv)
  · exact ages_fail _ s hs hn

theorem ages_writeField (i : Nat) (name : String) {value : Value} (h : value.Older n) :
    (writeField i name value).Ages n fun _ _ => True := by
  rintro s hs rfl
  have ht : ({ s with objects := s.objects.modify i (·.insert name value) } : State).Fresh :=
    ⟨hs.frames, hs.objects.insert i name h⟩
  exact .of_ok ht rfl trivial

theorem ages_newObject (className : String) : (newObject className).Ages n Value.Older := by
  rintro s hs rfl
  have ht : ({ s with objects := s.objects.push ∅ } : State).Fresh := ⟨hs.frames, hs.objects.push⟩
  exact .of_ok ht rfl trivial

theorem ages_requestCall (f : Function) {args : List Value} (h : ∀ v ∈ args, v.Older n) :
    (requestCall f args).Ages n Value.Older := by
  rintro s hs rfl
  rw [requestCall]
  split
  · exact ages_fail _ s hs rfl
  · exact ⟨⟨hs, h⟩, fun r t hr => Step.meets_ofReply hr⟩

theorem ages_callNative (f : Native) (args : List Value) :
    (callNative f args).Ages n Value.Older := by
  intro s hs hn
  have h := f.builtin.returns_apply s.clock.reading args
  rw [callNative]
  cases hr : f.builtin.apply s.clock.reading args with
  | ok v =>
    rw [hr] at h
    exact .of_ok ⟨hs.frames, hs.objects⟩ hn h.1.older
  | error fault => exact ages_fail fault _ ⟨hs.frames, hs.objects⟩ hn

end Action

/-- All code gives out numbers once. -/
def seniority : ActionLogic where
  World := Nat
  Grows := (· ≤ ·)
  Good := Value.Older
  Makes _ := True
  Holds n R x := x.Ages n R
  good_mono hle h := h.mono hle
  good_data hplain _ := hplain.older
  good_literal {_ _ v} _ := v.plain_value.older
  holds_pure h _ hs hn := .of_ok hs hn h
  holds_fail _ := Action.ages_fail _
  holds_giveUp _ _ _ _ hr := absurd rfl hr
  holds_bind := Action.Ages.bind
  holds_blaming span hx := hx.blaming span
  holds_block := Action.ages_block
  holds_readName := Action.ages_readName
  holds_defineName name _ := Action.ages_defineName name
  holds_assignName name _ := Action.ages_assignName name
  holds_printLine := Action.ages_printLine
  holds_newId := Action.ages_newId
  holds_lambda _ := Action.ages_newFunction _ _ _
  holds_funDecl _ := Action.ages_newFunction _ _ _
  holds_newObject := Action.ages_newObject
  holds_readField name _ := Action.ages_readField _ name
  holds_writeField name _ _ h := Action.ages_writeField _ name h
  holds_requestCall _ := Action.ages_requestCall _
  holds_callNative := Action.ages_callNative

theorem seniority_covers (nodes : List Node) : seniority.Covers nodes := fun _ _ => trivial

/-! ### Calls -/

theorem State.Fresh.entered {s : State} (hs : s.Fresh) (f : Function) {args : List Value}
    (hargs : ∀ v ∈ args, v.Older s.nextId) : (f.entered args s).Fresh :=
  ⟨f.stores_enter hargs hs.frames, hs.objects⟩

theorem aging_sound (fuel : Nat) : aging.Sound fuel where
  body f args s hpre := by
    obtain ⟨hs, hargs⟩ := hpre
    have hbody : (execAll fuel f.body).Ages s.nextId fun n flow => flow.Gives (Value.Older n) :=
      seniority.execAll fuel f.body (seniority_covers _)
    have hback : ((execAll fuel f.body (f.entered args s)).adjust id s.returned).Meets aging _ :=
      Action.Ages.adjust (hbody _ (hs.entered f hargs) rfl) (fun _ => rfl) (fun _ => rfl)
        fun _ => rfl
    rw [Function.apply_eq]
    refine hback.bind (fun flow t h => ?_) fun e t h => h.of_error
    obtain ⟨ht, hle, hflow⟩ := h nofun
    have hgives := hflow flow rfl
    cases flow with
    | next => exact fun _ => ⟨ht, hle, fun _ heq => Except.ok.inj heq ▸ trivial⟩
    | result v => exact fun _ => ⟨ht, hle, fun _ heq => Except.ok.inj heq ▸ hgives⟩
    | leave => exact fun _ => ⟨ht, hle, nofun⟩
  giveUp _ _ _ _ h := absurd rfl h

/-! ### Runs -/

section Ends

variable {s t : State}

theorem Action.Ages.run {R : Nat → α → Prop} {x : Action α} {r : Except Stop α} {fuel : Nat}
    (hx : x.Ages s.nextId R) (hs : s.Fresh) (h : x.run fuel s = (r, t)) :
    Lox.Ages s.nextId R r t := by
  have hrun := (aging_sound fuel).run (hx s hs rfl)
  rw [Action.run] at h
  rwa [h] at hrun

theorem Expr.Ends.ages {e : Expr} {r : Reply} (h : e.Ends s r t) (hs : s.Fresh) :
    t.Fresh ∧ s.nextId ≤ t.nextId ∧ ∀ v, r = .ok v → v.Older t.nextId := by
  obtain ⟨hr, fuel, hrun⟩ := h
  exact Action.Ages.run (seniority.eval e (seniority_covers _)) hs hrun hr

theorem EndEach.ages {es : List Expr} {r : Except Stop (List Value)} (h : EndEach es s r t)
    (hs : s.Fresh) :
    t.Fresh ∧ s.nextId ≤ t.nextId ∧ ∀ vs, r = .ok vs → ∀ v ∈ vs, v.Older t.nextId := by
  obtain ⟨hr, fuel, hrun⟩ := h
  exact Action.Ages.run (seniority.evalAll es (seniority_covers _)) hs hrun hr

theorem Stmt.Ends.ages {stmt : Stmt} {r : Except Stop Flow} (h : stmt.Ends s r t)
    (hs : s.Fresh) : t.Fresh ∧ s.nextId ≤ t.nextId := by
  obtain ⟨hr, fuel, hrun⟩ := h
  have hages := Action.Ages.run (seniority.exec fuel stmt (seniority_covers _)) hs hrun hr
  exact ⟨hages.1, hages.2.1⟩

end Ends

/-! ### Points of a run -/

/-- The numbers of the arguments of a call were given out. -/
def Task.Older (n : Nat) : Task → Prop
  | call _ args => ∀ v ∈ args, v.Older n
  | _ => True

namespace Task

variable {a b : Task} {s t : State}

theorem Leads.fresh (h : a.Leads s b t) (hs : s.Fresh) (ha : a.Older s.nextId) :
    t.Fresh ∧ b.Older t.nextId := by
  cases h with
  | first | argument | statement | topStatement => exact ⟨hs, trivial⟩
  | right h | undecided h | arguments h | value h | nextArgument h | thenBranch h | elseBranch h
  | turn h => exact ⟨(h.ages hs).1, trivial⟩
  | nextStatement h | nextTopStatement h => exact ⟨(h.ages hs).1, trivial⟩
  | nextTurn hc _ hb => exact ⟨(hb.ages (hc.ages hs).1).1, trivial⟩
  -- only here, values are handed on beside the state
  | call hf hes =>
    obtain ⟨hu, -, hargs⟩ := hes.ages (hf.ages hs).1
    exact ⟨hu, hargs _ rfl⟩
  | block => exact ⟨⟨hs.frames.push, hs.objects⟩, trivial⟩
  | enter => exact ⟨hs.entered _ ha, trivial⟩

theorem Visits.fresh (h : a.Visits s b t) (hs : s.Fresh) (ha : a.Older s.nextId) :
    t.Fresh ∧ b.Older t.nextId := by
  induction h with
  | here => exact ⟨hs, ha⟩
  | step _ hstep ih => exact hstep.fresh ih.1 ih.2

end Task

namespace Session

theorem fresh_start (clock : Clock) : (start clock).state.Fresh :=
  State.stores_start (fun _ _ => trivial) clock

variable {s : Session}

theorem fresh_begin (hs : s.state.Fresh) (program : Program) :
    ({ s.state with output := "", program } : State).Fresh :=
  ⟨hs.frames, hs.objects⟩

theorem runStatements_ages (fuel : Nat) {n : Nat} (ss : List Stmt) :
    (runStatements fuel ss).Ages n fun _ _ => True := by
  induction ss generalizing n with
  | nil => exact fun _ hs hn => .of_ok hs hn trivial
  | cons stmt rest ih =>
    have hexec : (exec fuel stmt).Ages n _ := seniority.exec fuel stmt (seniority_covers _)
    rw [runStatements]
    refine hexec.bind fun m flow _ _ => ?_
    cases flow with
    | next => exact ih
    | leave | result => exact Action.ages_stopWith _

theorem Ends.fresh {source : String} {o : Outcome} (h : s.Ends source o) (hs : s.state.Fresh) :
    o.session.state.Fresh := by
  obtain ⟨fuel, hrun⟩ := h
  rcases run_eq_some_iff.1 hrun with ⟨p, -, rfl⟩ | ⟨program, -, hends⟩
  · rwa [reject, state_read]
  · obtain ⟨r, t, hsteps, hr, rfl⟩ := runProgram_eq_some_iff.1 hends
    rw [← state_read s source] at hs
    obtain ⟨ht, -⟩ := (runStatements_ages fuel _).run (fresh_begin hs program) hsteps hr
    exact ⟨ht.frames, ht.objects⟩

theorem Reaches.fresh {later : Session} (h : s.Reaches later) (hs : s.state.Fresh) :
    later.state.Fresh := by
  induction h with
  | refl => exact hs
  | setClock _ clock ih => exact ⟨ih.frames, ih.objects⟩
  | run _ ends ih => exact ends.fresh ih

theorem Visits.fresh {source : String} {task : Task} {t : State} (h : s.Visits source task t)
    (hs : s.state.Fresh) : t.Fresh := by
  obtain ⟨program, -, h⟩ := h
  exact (h.fresh (fresh_begin hs program) trivial).1

end Session

theorem State.Reached.fresh {t : State} (h : t.Reached) : t.Fresh := by
  obtain ⟨clock, s, hs, ht⟩ := h
  have hfresh : s.state.Fresh := hs.fresh (Session.fresh_start clock)
  rcases ht with rfl | ⟨source, task, ht⟩
  · exact hfresh
  · exact ht.fresh hfresh

end Lox
