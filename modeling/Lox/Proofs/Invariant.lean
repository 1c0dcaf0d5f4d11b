import Lox.Proofs.ActionLogic
import Lox.Proofs.Escapes

/-!
# Invariants of runs

An invariant says what the functions and the texts that a state holds have in common, and how its
environment and its program are. It is about a world, which grows while code runs. What few changes
of a state keep, all code keeps, to every end and through all calls.

* `Invariant`: what is kept, with a law for each way to change a state;
* `Invariant.Good`, `Invariant.At`: the values that are as it says, and the states in which it
  holds;
* `Invariant.Allows`: the nodes that code may have;
* `Invariant.Keeps`, `Invariant.logic`: actions that keep it, and their logic;
* `Invariant.sound`: calls keep it;
* `Invariant.Keeps.run`, `Invariant.runProgram`: what holds after a run.
-/

namespace Lox

/-- What code keeps. In a world, functions that are values satisfy `Ok`, texts that are values
satisfy `Says`, and the environment and the program satisfy `Fits`. Functions that are made satisfy
`Made`, the texts of literals satisfy `Says` too, and runs fail as `Fails` says. -/
structure Invariant where
  World : Type
  Grows : World → World → Prop
  Ok : World → Function → Prop
  Fits : World → Environment → Program → Prop
  Made : Function → Prop
  Says : String → Prop
  Fails : Fault → Prop
  grows_refl : ∀ w, Grows w w
  grows_trans : ∀ {w w' w'' : World}, Grows w w' → Grows w' w'' → Grows w w''
  ok_mono : ∀ {w w' : World} {f : Function}, Grows w w' → Ok w f → Ok w' f
  ok_made : ∀ {w : World} {f : Function} {env : Environment}, Fits w env f.program →
    f.scope = env.scope → Made f → Ok w f
  made_body : ∀ {w : World} {f : Function}, Ok w f →
    ∀ n ∈ nodesAll f.body, n.Makes Made f.program ∧ n.Spells Says
  says_short : ∀ {text : String}, Short text → Says text
  /-- The innermost frame gets a name, or another frame that has it a new value for it. -/
  fits_write : ∀ {w : World} {env : Environment} {p : Program} {i : Nat} {name : String}
    (value : Value), Fits w env p → env.scope.head? = some i ∨ ((env.frame i).get? name).isSome →
    Fits w (env.write i name value) p
  exists_push : ∀ {w : World} {env : Environment} {p : Program}, Fits w env p →
    ∃ w', Grows w w' ∧ Fits w' env.push p
  exists_pushOn : ∀ {w : World} {env : Environment} {p : Program} {f : Function}, Fits w env p →
    Ok w f → ∃ w', Grows w w' ∧ Fits w' (env.pushOn f.scope) f.program
  /-- The scope and the program are put back that were there before. -/
  fits_back : ∀ {w w' : World} {env env' : Environment} {p p' : Program}, Fits w env p →
    Grows w w' → Fits w' env' p' → Fits w' (env'.enter env.scope) p
  fails : ∀ {fault : Fault}, ¬ fault.OfFlow → Fails fault
  fails_break : ∀ {w : World} {f : Function}, Ok w f → mayBreakAll f.body = true →
    Fails .breakOutsideLoop

namespace Invariant

variable {I : Invariant} {w w' : I.World} {p : Program} {α β : Type}

/-- A value is good if it is no function or text, or one as the invariant says. -/
structure Good (I : Invariant) (w : I.World) (v : Value) : Prop where
  each : v.Each (I.Ok w)
  spells : v.Spells I.Says

theorem Good.mono {v : Value} (h : I.Good w v) (hw : I.Grows w w') : I.Good w' v :=
  ⟨h.each.mono fun _ => I.ok_mono hw, h.spells⟩

/-- The values of a state and its environment are as the invariant says. -/
structure At (I : Invariant) (w : I.World) (s : State) : Prop where
  values : s.Stores (I.Good w)
  fits : I.Fits w s.env s.program

theorem At.each {s : State} (h : I.At w s) : s.Each (I.Ok w) :=
  ⟨h.values.frames.mono fun _ hv => hv.each, h.values.objects.mono fun _ hv => hv.each⟩

/-- An invariant may say nothing about texts. -/
theorem At.of_each {s : State} (h : s.Each (I.Ok w)) (htexts : ∀ text, I.Says text)
    (hfits : I.Fits w s.env s.program) : I.At w s := by
  have hgood (v : Value) (hv : v.Each (I.Ok w)) : I.Good w v := ⟨hv, v.spells_of_forall htexts⟩
  exact ⟨⟨Stores.mono h.frames hgood, Stores.mono h.objects hgood⟩, hfits⟩

/-- What code may have at a node: a function as the invariant says, or a literal with such a
text. -/
def Allows (I : Invariant) (p : Program) (n : Node) : Prop := n.Makes I.Made p ∧ n.Spells I.Says

theorem allows_of_makes {n : Node} (h : n.Makes I.Made p) (htexts : ∀ text, I.Says text) :
    I.Allows p n :=
  ⟨h, n.spells_of_forall htexts⟩

/-- How code of a program ends: the invariant holds in a larger world, and a result is as `R` says
there. -/
def Kept (I : Invariant) (p : Program) (w : I.World) (R : I.World → α → Prop)
    (r : Except Stop α) (t : State) : Prop :=
  match r with
  | .ok a => ∃ w', I.Grows w w' ∧ I.At w' t ∧ t.program = p ∧ R w' a
  | .error (.error e) => I.Fails e.fault ∧ ∃ w', I.Grows w w' ∧ I.At w' t ∧ t.program = p
  | .error .outOfFuel => True

/-- A call of a function as the invariant says, with such arguments and in such a state, keeps the
invariant. -/
def contract (I : Invariant) : Contract where
  pre f args s := ∃ w, I.At w s ∧ I.Ok w f ∧ ∀ v ∈ args, I.Good w v
  post f args s r t := ∀ w, I.At w s → I.Ok w f → (∀ v ∈ args, I.Good w v) →
    I.Kept s.program w I.Good r t

/-- As code of a program, an action keeps the invariant. -/
def Keeps (I : Invariant) (p : Program) (w : I.World) (R : I.World → α → Prop)
    (x : Action α) : Prop :=
  ∀ s, I.At w s → s.program = p → (x s).Meets I.contract (I.Kept p w R)

/-! ### Changes of a state -/

theorem Kept.mono {R Q : I.World → α → Prop} {r : Except Stop α} {t : State}
    (h : I.Kept p w' R r t) (hw : I.Grows w w') (hR : ∀ w a, R w a → Q w a) :
    I.Kept p w Q r t := by
  rcases r with (e | _) | a
  · obtain ⟨hfails, w'', hw', ht⟩ := h
    exact ⟨hfails, w'', I.grows_trans hw hw', ht⟩
  · trivial
  · obtain ⟨w'', hw', ht, hp, ha⟩ := h
    exact ⟨w'', I.grows_trans hw hw', ht, hp, hR _ _ ha⟩

/-- Code that ends leaves the invariant behind, whatever it ends with. -/
theorem Kept.at_end {R : I.World → α → Prop} {r : Except Stop α} {t : State}
    (h : I.Kept p w R r t) (hr : r ≠ .error .outOfFuel) :
    ∃ w', I.Grows w w' ∧ I.At w' t ∧ t.program = p ∧ ∀ a, r = .ok a → R w' a := by
  rcases r with (e | _) | a
  · obtain ⟨-, w', hw, ht, hp⟩ := h
    exact ⟨w', hw, ht, hp, nofun⟩
  · exact absurd rfl hr
  · obtain ⟨w', hw, ht, hp, ha⟩ := h
    exact ⟨w', hw, ht, hp, fun _ heq => Except.ok.inj heq ▸ ha⟩

theorem Kept.of_at {R : I.World → α → Prop} {a : α} {s : State} (hs : I.At w s)
    (hp : s.program = p) (ha : R w a) : I.Kept p w R (.ok a) s :=
  ⟨w, I.grows_refl w, hs, hp, ha⟩

theorem fits_define {env : Environment} (h : I.Fits w env p) (name : String) (value : Value) :
    I.Fits w (env.define name value) p := by
  rw [Environment.define]
  split
  · exact h
  · next i _ hscope => exact I.fits_write value h (.inl (by rw [hscope]; rfl))

/-- With the parameters in the new frame, the environment of a body is as the invariant says. -/
theorem exists_enter {env : Environment} {f : Function} (h : I.Fits w env p) (hf : I.Ok w f)
    (args : List Value) : ∃ w', I.Grows w w' ∧ I.Fits w' (f.enter args env) f.program := by
  obtain ⟨w', hw, h⟩ := I.exists_pushOn h hf
  refine ⟨w', hw, ?_⟩
  rw [Function.enter]
  generalize f.params.zip args = pairs at *
  generalize env.pushOn f.scope = env at *
  induction pairs generalizing env with
  | nil => exact h
  | cons e pairs ih => exact ih _ (fits_define h e.1 e.2)

theorem At.push {s : State} (h : I.At w s) :
    ∃ w', I.Grows w w' ∧ I.At w' { s with env := s.env.push } := by
  obtain ⟨w', hw, hfits⟩ := I.exists_push h.fits
  have hvalues := h.values.mono fun _ hv => hv.mono hw
  exact ⟨w', hw, ⟨hvalues.frames.push, hvalues.objects⟩, hfits⟩

theorem At.entered {s : State} (h : I.At w s) {f : Function} (hf : I.Ok w f) {args : List Value}
    (hargs : ∀ v ∈ args, I.Good w v) : ∃ w', I.Grows w w' ∧ I.At w' (f.entered args s) := by
  obtain ⟨w', hw, hfits⟩ := exists_enter h.fits hf args
  have hvalues := h.values.mono fun _ hv => hv.mono hw
  have hargs : ∀ v ∈ args, I.Good w' v := fun v hv => (hargs v hv).mono hw
  exact ⟨w', hw, ⟨f.stores_enter hargs hvalues.frames, hvalues.objects⟩, hfits⟩

theorem At.back {s t : State} (h : I.At w s) (hw : I.Grows w w') (ht : I.At w' t) :
    I.At w' { t with env := t.env.enter s.env.scope, program := s.program } :=
  ⟨⟨ht.values.frames, ht.values.objects⟩, I.fits_back h.fits hw ht.fits⟩

/-! ### Rules -/

theorem good_data {v : Value} (hplain : v.Plain) (hshort : v.Spells Short) : I.Good w v :=
  ⟨hplain.each, hshort.mono fun _ => I.says_short⟩

theorem good_literal {m : Mark} {v : Literal} (h : I.Allows p (.expr (.literal m v))) :
    I.Good w v.value := by
  refine ⟨v.plain_value.each, ?_⟩
  cases v with
  | str text => exact h.2
  | _ => trivial

theorem keeps_pure {R : I.World → α → Prop} {a : α} (h : R w a) :
    I.Keeps p w R (pure a : Action α) := fun _ hs hp => .of_at hs hp h

theorem keeps_fail {R : I.World → α → Prop} {fault : Fault} (h : I.Fails fault) :
    I.Keeps p w R (fail fault : Action α) :=
  fun _ hs hp => ⟨h, w, I.grows_refl w, hs, hp⟩

theorem Keeps.bind {R : I.World → α → Prop} {Q : I.World → β → Prop} {x : Action α}
    {g : α → Action β} (hx : I.Keeps p w R x)
    (hg : ∀ w' a, I.Grows w w' → R w' a → I.Keeps p w' Q (g a)) : I.Keeps p w Q (x >>= g) := by
  intro s hs hp
  rw [Action.bind_apply]
  refine (hx s hs hp).bind (fun a t ht => ?_) fun e t ht => ?_
  · obtain ⟨w', hw, ht, hpt, ha⟩ := ht
    exact (hg w' a hw ha t ht hpt).mono fun r u hu => hu.mono hw fun _ _ h => h
  · cases e with
    | error e => exact ht
    | outOfFuel => trivial

/-- What is seen in the source about the results of an action can be added. -/
theorem Keeps.and_yields {R : I.World → α → Prop} {Q : α → Prop} {x : Action α}
    (hx : I.Keeps p w R x) (hQ : x.Yields Q) : I.Keeps p w (fun w a => R w a ∧ Q a) x := by
  intro s hs hp
  refine ((hx s hs hp).and_yields (hQ s)).mono fun r t ⟨ht, ha⟩ => ?_
  rcases r with (e | _) | a
  · exact ht
  · trivial
  · obtain ⟨w', hw, ht, hp, hR⟩ := ht
    exact ⟨w', hw, ht, hp, hR, ha a rfl⟩

theorem Keeps.blaming {R : I.World → α → Prop} {x : Action α} (span : Span)
    (hx : I.Keeps p w R x) : I.Keeps p w R (blaming span x) := by
  intro s hs hp
  refine (hx s hs hp).adjust (fun a t ht => ht) fun e t ht => ?_
  cases e with
  | error e => exact ht
  | outOfFuel => trivial

/-- What is put back after an action, with nothing to blame. -/
theorem Kept.adjust {q : Program} {R : I.World → α → Prop} {x : Step α} {after : State → State}
    (hx : x.Meets I.contract (I.Kept q w' R)) (hw : I.Grows w w')
    (hafter : ∀ w'' t, I.Grows w w'' → I.At w'' t → t.program = q →
      I.At w'' (after t) ∧ (after t).program = p) :
    (x.adjust id after).Meets I.contract (I.Kept p w R) := by
  refine hx.adjust (fun a t ht => ?_) fun e t ht => ?_
  · obtain ⟨w'', hw', ht, hq, ha⟩ := ht
    obtain ⟨ht, hp⟩ := hafter w'' t (I.grows_trans hw hw') ht hq
    exact ⟨w'', I.grows_trans hw hw', ht, hp, ha⟩
  · cases e with
    | outOfFuel => trivial
    | error e =>
      obtain ⟨hfails, w'', hw', ht, hq⟩ := ht
      exact ⟨hfails, w'', I.grows_trans hw hw', hafter w'' t (I.grows_trans hw hw') ht hq⟩

theorem keeps_block {R : I.World → α → Prop} {x : Action α}
    (hx : ∀ w', I.Grows w w' → I.Keeps p w' R x) : I.Keeps p w R (within .push x) := by
  intro s hs hp
  obtain ⟨w', hw, hpush⟩ := hs.push
  refine Kept.adjust (hx w' hw _ hpush hp) hw fun w'' t hw' ht hq => ⟨?_, hq⟩
  have hback := hs.back hw' ht
  rwa [hp, ← hq] at hback

theorem keeps_readName (name : String) : I.Keeps p w I.Good (readName name) := by
  intro s hs hp
  rw [readName]
  split
  · next v hv => exact .of_at hs hp (Environment.stores_lookup hs.values.frames hv)
  · exact keeps_fail (I.fails id) s hs hp

theorem keeps_defineName (name : String) {value : Value} (h : I.Good w value) :
    I.Keeps p w (fun _ _ => True) (defineName name value) := fun _ hs hp =>
  .of_at ⟨⟨Environment.stores_define hs.values.frames name h, hs.values.objects⟩,
    fits_define hs.fits name value⟩ hp trivial

theorem keeps_assignName (name : String) {value : Value} (h : I.Good w value) :
    I.Keeps p w (fun _ _ => True) (assignName name value) := by
  intro s hs hp
  rw [assignName]
  split
  · next i hi =>
    have hfound := List.find?_some hi
    exact .of_at ⟨⟨hs.values.frames.insert i name h, hs.values.objects⟩,
      I.fits_write value hs.fits (.inr hfound)⟩ hp trivial
  · exact keeps_fail (I.fails id) s hs hp

theorem keeps_newFunction {name : Option String} {params : List String} {body : List Stmt}
    (h : ∀ scope, I.Made ⟨name, params, body, scope, p⟩) :
    I.Keeps p w I.Good (newFunction name params body) := by
  intro s hs hp
  have hfits : I.Fits w s.env s.program := hs.fits
  exact .of_at ⟨⟨hs.values.frames, hs.values.objects⟩, hs.fits⟩ hp
    ⟨I.ok_made hfits rfl (hp ▸ h s.env.scope), trivial⟩

theorem keeps_readField (i : Nat) (name : String) : I.Keeps p w I.Good (readField i name) := by
  intro s hs hp
  rw [readField]
  split
  · next v hv => exact .of_at hs hp (hs.values.objects i name v hv)
  · exact keeps_fail (I.fails id) s hs hp

theorem keeps_writeField (i : Nat) (name : String) {value : Value} (h : I.Good w value) :
    I.Keeps p w (fun _ _ => True) (writeField i name value) := fun _ hs hp =>
  .of_at ⟨⟨hs.values.frames, hs.values.objects.insert i name h⟩, hs.fits⟩ hp trivial

/-- A call is as the contract says. -/
theorem keeps_requestCall {f : Function} (hf : I.Ok w f) {args : List Value}
    (hargs : ∀ v ∈ args, I.Good w v) : I.Keeps p w I.Good (requestCall f args) := by
  intro s hs hp
  rw [requestCall]
  split
  · exact keeps_fail (I.fails id) s hs hp
  · exact ⟨⟨w, hs, hf, hargs⟩, fun r t hr => Step.meets_ofReply (hp ▸ hr w hs hf hargs)⟩

theorem keeps_callNative (f : Native) (args : List Value) :
    I.Keeps p w I.Good (callNative f args) := by
  intro s hs hp
  have h := f.builtin.returns_apply s.clock.reading args
  have hclock : I.At w { s with clock := s.clock.after f.builtin } :=
    ⟨⟨hs.values.frames, hs.values.objects⟩, hs.fits⟩
  rw [callNative]
  cases hr : f.builtin.apply s.clock.reading args with
  | ok v =>
    rw [hr] at h
    exact .of_at hclock hp (good_data h.1 h.2)
  | error fault =>
    rw [hr] at h
    exact keeps_fail (I.fails (Builtin.Raises.not_ofFlow h)) _ hclock hp

/-- What holds of the code of a program: it keeps the invariant. -/
def logic (I : Invariant) (p : Program) : ActionLogic where
  World := I.World
  Grows := I.Grows
  Good := I.Good
  Makes := I.Allows p
  Holds w R x := I.Keeps p w R x
  good_mono hw h := h.mono hw
  good_data := good_data
  good_literal := good_literal
  holds_pure := keeps_pure
  holds_fail h := keeps_fail (I.fails h)
  holds_giveUp _ _ _ _ := trivial
  holds_bind := Keeps.bind
  holds_blaming span hx := hx.blaming span
  holds_block := keeps_block
  holds_readName := keeps_readName
  holds_defineName name _ := keeps_defineName name
  holds_assignName name _ := keeps_assignName name
  holds_printLine _ _ hs hp := .of_at ⟨⟨hs.values.frames, hs.values.objects⟩, hs.fits⟩ hp trivial
  holds_newId _ hs hp := .of_at ⟨⟨hs.values.frames, hs.values.objects⟩, hs.fits⟩ hp trivial
  holds_lambda h := keeps_newFunction h.1
  holds_funDecl h := keeps_newFunction h.1
  holds_newObject _ _ hs hp :=
    .of_at ⟨⟨hs.values.frames, hs.values.objects.push⟩, hs.fits⟩ hp ⟨trivial, trivial⟩
  holds_readField name _ := keeps_readField _ name
  holds_writeField name _ _ h := keeps_writeField _ name h
  holds_requestCall hf hargs := keeps_requestCall hf.each hargs
  holds_callNative := keeps_callNative

/-! ### Calls -/

/-- A call of a function keeps the invariant, if the calls in its body do. -/
theorem apply_keeps (fuel : Nat) {f : Function} {args : List Value} {s : State} (hs : I.At w s)
    (hf : I.Ok w f) (hargs : ∀ v ∈ args, I.Good w v) :
    (f.apply fuel args s).Meets I.contract (I.Kept s.program w I.Good) := by
  obtain ⟨w', hw, hstart⟩ := hs.entered hf hargs
  have hbody : I.Keeps f.program w' _ (execAll fuel f.body) :=
    Keeps.and_yields ((I.logic f.program).execAll fuel f.body fun n hn => I.made_body hf n hn)
      (execAll_yields fuel f.body)
  have hback : ((execAll fuel f.body (f.entered args s)).adjust id s.returned).Meets I.contract
      (I.Kept s.program w _) :=
    Kept.adjust (hbody _ hstart rfl) hw fun w'' t hw' ht _ =>
      have hback := hs.back hw' ht
      ⟨⟨⟨hback.values.frames, hback.values.objects⟩, hback.fits⟩, rfl⟩
  rw [Function.apply_eq]
  refine hback.bind (fun flow t ht => ?_) fun e t ht => ?_
  · obtain ⟨w'', hw', ht, hp, hflow, hwithin⟩ := ht
    cases flow with
    | next => exact ⟨w'', hw', ht, hp, trivial, trivial⟩
    | result v => exact ⟨w'', hw', ht, hp, hflow⟩
    | leave => exact ⟨I.fails_break hf hwithin, w'', hw', ht, hp⟩
  · cases e with
    | error e => exact ht
    | outOfFuel => trivial

theorem sound (I : Invariant) (fuel : Nat) : I.contract.Sound fuel where
  body f args s hpre := by
    -- the contract speaks of every world in which the call may be asked for
    let Worlds : Type := { w : I.World // I.At w s ∧ I.Ok w f ∧ ∀ v ∈ args, I.Good w v }
    obtain ⟨w, hw⟩ := hpre
    have hne : Nonempty Worlds := ⟨w, hw⟩
    have hall : (f.apply fuel args s).Meets I.contract fun r t => ∀ w : Worlds,
        I.Kept s.program w.1 I.Good r t :=
      .all fun w => apply_keeps fuel w.2.1 w.2.2.1 w.2.2.2
    exact hall.mono fun r t h w hs hf hargs => h ⟨w, hs, hf, hargs⟩
  giveUp _ _ _ _ _ _ _ _ := trivial

/-! ### Runs -/

/-- An action that keeps the invariant ends as that says, if it is run with all its calls. -/
theorem Keeps.run {R : I.World → α → Prop} {x : Action α} {s t : State} {r : Except Stop α}
    {fuel : Nat} (hx : I.Keeps s.program w R x) (hs : I.At w s) (h : x.run fuel s = (r, t)) :
    I.Kept s.program w R r t := by
  have hrun := (I.sound fuel).run (hx s hs rfl)
  rw [Action.run] at h
  rwa [h] at hrun

/-- The statements of a program fail besides for a `break` and a `return` at the top. -/
theorem runStatements_keeps (fuel : Nat) {ss : List Stmt}
    (hallows : ∀ n ∈ nodesAll ss, I.Allows p n)
    (hbreak : mayBreakAll ss = true → I.Fails .breakOutsideLoop)
    (hreturn : mayReturnAll ss = true → I.Fails .returnOutsideFunction) :
    I.Keeps p w (fun _ _ => True) (runStatements fuel ss) := by
  induction ss generalizing w with
  | nil => exact keeps_pure trivial
  | cons stmt rest ih =>
    obtain ⟨hstmt, hrest⟩ := List.forall_mem_append.1 hallows
    have hexec : I.Keeps p w _ (exec fuel stmt) :=
      Keeps.and_yields ((I.logic p).exec fuel stmt fun n hn => hstmt n hn) (exec_yields fuel stmt)
    rw [runStatements]
    refine hexec.bind fun w' flow _ hflow => ?_
    cases flow with
    | next =>
      exact ih hrest (fun h => hbreak (by simp [mayBreakAll, h])) fun h =>
        hreturn (by simp [mayReturnAll, h])
    | leave =>
      have hb : stmt.mayBreak = true := hflow.2
      exact fun _ hs hp => ⟨hbreak (by simp [mayBreakAll, hb]), w', I.grows_refl w', hs, hp⟩
    | result v =>
      have hr : stmt.mayReturn = true := hflow.2
      exact fun _ hs hp => ⟨hreturn (by simp [mayReturnAll, hr]), w', I.grows_refl w', hs, hp⟩

/-- What a program leaves behind, and how it may fail. -/
theorem runProgram {s : Session} {program : Program} {fuel : Nat} {o : Outcome}
    (hs : I.At w { s.state with output := "", program })
    (hallows : ∀ n ∈ program.nodes, I.Allows program n)
    (hbreak : mayBreakAll program.statements = true → I.Fails .breakOutsideLoop)
    (hreturn : mayReturnAll program.statements = true → I.Fails .returnOutsideFunction)
    (h : s.runProgram fuel program = some o) :
    ∃ w', I.Grows w w' ∧ I.At w' o.session.state ∧
      ∀ e, o.problem = some (.running e) → I.Fails e.fault := by
  obtain ⟨r, t, hrun, hr, rfl⟩ := Session.runProgram_eq_some_iff.1 h
  have hkept := (runStatements_keeps fuel hallows hbreak hreturn).run hs hrun
  rcases r with (e | _) | _
  · obtain ⟨hfails, w', hw, ht, -⟩ := hkept
    refine ⟨w', hw, ⟨⟨ht.values.frames, ht.values.objects⟩, ht.fits⟩, ?_⟩
    rintro _ ⟨⟩
    exact hfails
  · exact absurd rfl hr
  · obtain ⟨w', hw, ht, -⟩ := hkept
    refine ⟨w', hw, ⟨⟨ht.values.frames, ht.values.objects⟩, ht.fits⟩, fun e he => ?_⟩
    simp [Session.settle, Session.problem?] at he

end Invariant

end Lox
