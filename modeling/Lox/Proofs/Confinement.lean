import Lox.Proofs.Lockstep
import Lox.Proofs.Reachability
import Lox.Proofs.ScopeGraph

/-!
# Calls touch only what they can reach

A function comes to frames and objects by the frames that it was made in, by its arguments, and by
what it finds there. What it cannot reach so, it neither changes nor depends on: two calls of a
function in states that differ elsewhere only stay in lockstep.

* `Moves`: two states that agree on what is seen, after two others;
* `confining`, `confinement`: actions that see what they are given only, as a pact and as a logic;
* `confining_sound`: calls keep the pact;
* `call_confined`.
-/

namespace Lox

variable {V : Ref → Prop} {α β : Type}

/-! ### Pairs of states -/

/-- From the states `s` and `t`, two runs come to `s'` and `t'`, which agree on what is seen.
Elsewhere neither run has changed anything. -/
structure Moves (V : Ref → Prop) (s t s' t' : State) : Prop where
  closed : s'.Closed V
  agree : s'.AgreeOn V t'
  left : s.Spares V s'
  right : t.Spares V t'

theorem Moves.trans {s t s' t' s'' t'' : State} (h : Moves V s t s' t')
    (h' : Moves V s' t' s'' t'') : Moves V s t s'' t'' :=
  ⟨h'.closed, h'.agree, h.left.trans h'.left, h.right.trans h'.right⟩

/-- Two states in which code sees the same: they agree on what is seen, have the same scope, which
is seen, and the same program. -/
structure Twin (V : Ref → Prop) (s t : State) : Prop where
  closed : s.Closed V
  agree : s.AgreeOn V t
  scope : t.env.scope = s.env.scope
  program : t.program = s.program
  seen : ∀ i ∈ s.env.scope, V (.frame i)

namespace Twin

variable {s t s' t' : State}

theorem refl_moves (h : Twin V s t) : Moves V s t s t := ⟨h.closed, h.agree, .refl, .refl⟩

/-- Runs that put back the scope and the program come to twins again. -/
theorem of_moves (h : Twin V s t) (hm : Moves V s t s' t') (hs : s'.place = s.place)
    (ht : t'.place = t.place) : Twin V s' t' := by
  have hscope : s'.env.scope = s.env.scope := congrArg Place.scope hs
  have hscope' : t'.env.scope = t.env.scope := congrArg Place.scope ht
  have hprogram : s'.program = s.program := congrArg Place.program hs
  have hprogram' : t'.program = t.program := congrArg Place.program ht
  refine ⟨hm.closed, hm.agree, ?_, ?_, ?_⟩
  · rw [hscope, hscope', h.scope]
  · rw [hprogram, hprogram', h.program]
  · rw [hscope]
    exact h.seen

theorem frame_eq (h : Twin V s t) : ∀ i ∈ s.env.scope, t.env.frame i = s.env.frame i :=
  fun i hi => h.agree.frames.bindings i (h.seen i hi)

theorem lookup_eq (h : Twin V s t) (x : String) : t.env.lookup x = s.env.lookup x := by
  rw [Environment.lookup, Environment.lookup, h.scope]
  exact Environment.lookupIn_congr h.frame_eq x

theorem owner?_eq (h : Twin V s t) (x : String) :
    t.env.owner? t.env.scope x = s.env.owner? s.env.scope x := by
  rw [h.scope]
  exact Environment.owner?_congr h.frame_eq x

theorem seen_lookup (h : Twin V s t) {x : String} {v : Value} (hv : s.env.lookup x = some v) :
    v.Seen V := by
  obtain ⟨i, hi, hv⟩ := List.exists_of_findSome?_eq_some hv
  exact h.closed.frames.values i (h.seen i hi) x v hv

/-- A seen frame gets a value in both states. -/
theorem write (h : Twin V s t) {i : Nat} (hi : V (.frame i)) (x : String) {value : Value}
    (hvalue : value.Seen V) :
    Moves V s t { s with env := s.env.write i x value }
      { t with env := t.env.write i x value } where
  closed := ⟨h.closed.frames.insert i x hvalue, h.closed.objects⟩
  agree := { h.agree with frames := h.agree.frames.insert i x value }
  left := ⟨.insert hi x value, .refl⟩
  right := ⟨.insert hi x value, .refl⟩

theorem define (h : Twin V s t) (x : String) {value : Value} (hvalue : value.Seen V) :
    Moves V s t { s with env := s.env.define x value } { t with env := t.env.define x value } := by
  rw [Environment.define, Environment.define, h.scope]
  split
  · exact h.refl_moves
  · next i rest hscope => exact h.write (h.seen i (hscope ▸ .head _)) x hvalue

end Twin

/-! ### Actions that see what they are given only -/

/-- How two runs end: in the places where they started, with the same result, which refers to what
is seen. -/
def Confined (V : Ref → Prop) (R : α → Prop) (s t : State) : Joint α := fun r s' t' =>
  match r with
  | .ok a => Moves V s t s' t' ∧ s'.place = s.place ∧ t'.place = t.place ∧ R a
  | .error (.error _) => Moves V s t s' t' ∧ s'.place = s.place ∧ t'.place = t.place
  | .error .outOfFuel => True

/-- A function and arguments that are seen are called in states that agree on what is seen. -/
def confining (V : Ref → Prop) : Pact where
  pre f args s t := s.Closed V ∧ s.AgreeOn V t ∧ (∀ i ∈ f.scope, V (.frame i)) ∧
    ∀ v ∈ args, v.Seen V
  post _ _ s t := Confined V (Value.Seen V) s t

/-- From two states, the action runs in lockstep, and sees what it is given only. -/
def Action.ConfinesAt (V : Ref → Prop) (R : α → Prop) (s t : State) (x : Action α) : Prop :=
  (x s).Locked (confining V) (Confined V R s t) (x t)

/-- From all twins, the action runs in lockstep, and sees what it is given only. -/
def Action.Confines (V : Ref → Prop) (R : α → Prop) (x : Action α) : Prop :=
  ∀ s t, Twin V s t → x.ConfinesAt V R s t

theorem Confined.mono {R : α → Prop} {s t s' t' : State} {r : Except Stop α} {u u' : State}
    (h : Confined V R s' t' r u u') (hm : Moves V s t s' t') (hs : s'.place = s.place)
    (ht : t'.place = t.place) : Confined V R s t r u u' := by
  rcases r with (e | _) | a
  · obtain ⟨hm', hs', ht'⟩ := h
    exact ⟨hm.trans hm', hs'.trans hs, ht'.trans ht⟩
  · trivial
  · obtain ⟨hm', hs', ht', ha⟩ := h
    exact ⟨hm.trans hm', hs'.trans hs, ht'.trans ht, ha⟩

/-! ### Rules -/

theorem pure_confines {R : α → Prop} {a : α} (h : R a) : (pure a : Action α).Confines V R :=
  fun _ _ hst => .done ⟨hst.refl_moves, rfl, rfl, h⟩

theorem fail_confinesAt {R : α → Prop} {s t : State} (hs : s.Closed V) (hst : s.AgreeOn V t)
    (fault : Fault) : (fail fault : Action α).ConfinesAt V R s t :=
  .stop ⟨⟨hs, hst, .refl, .refl⟩, rfl, rfl⟩

theorem fail_confines {R : α → Prop} (fault : Fault) : (fail fault : Action α).Confines V R :=
  fun _ _ hst => fail_confinesAt hst.closed hst.agree fault

namespace Action.Confines

variable {R : α → Prop} {Q : β → Prop}

theorem bind {x : Action α} {g : α → Action β} (hx : x.Confines V R)
    (hg : ∀ a, R a → (g a).Confines V Q) : (x >>= g).Confines V Q := by
  intro s t hst
  rw [ConfinesAt, bind_apply, bind_apply]
  refine (hx s t hst).bind (fun a s' t' ha => ?_) fun e s' t' he => ?_
  · obtain ⟨hm, hs, ht, ha⟩ := ha
    exact (hg a ha s' t' (hst.of_moves hm hs ht)).mono fun r u u' hu => hu.mono hm hs ht
  · cases e with
    | error e => exact he
    | outOfFuel => trivial

theorem blaming {x : Action α} (hx : x.Confines V R) (span : Span) :
    (blaming span x).Confines V R := by
  intro s t hst
  refine (hx s t hst).adjust (fun a s' t' ha => ha) fun e s' t' he => ?_
  cases e with
  | error e => exact he
  | outOfFuel => trivial

end Action.Confines

/-- What is put back after two runs, with nothing to blame. -/
theorem Confined.adjust {R : α → Prop} {x y : Step α} {s t s₀ t₀ : State}
    {after after' : State → State} (h : x.Locked (confining V) (Confined V R s₀ t₀) y)
    (hafter : ∀ s' t', Moves V s₀ t₀ s' t' → s'.place = s₀.place → t'.place = t₀.place →
      Moves V s t (after s') (after' t') ∧ (after s').place = s.place ∧
        (after' t').place = t.place) :
    (x.adjust id after).Locked (confining V) (Confined V R s t) (y.adjust id after') := by
  refine h.adjust (fun a s' t' ha => ?_) fun e s' t' he => ?_
  · obtain ⟨hm, hs, ht, ha⟩ := ha
    obtain ⟨hm, hs, ht⟩ := hafter s' t' hm hs ht
    exact ⟨hm, hs, ht, ha⟩
  · cases e with
    | outOfFuel => trivial
    | error e =>
      obtain ⟨hm, hs, ht⟩ := he
      exact hafter s' t' hm hs ht

/-- A new frame is seen, and so may be the innermost one of the new scope. -/
theorem twin_pushOn {s t : State} (hs : s.Closed V) (hst : s.AgreeOn V t) {scope : Scope}
    (hscope : ∀ i ∈ scope, V (.frame i)) (program : Program) (depth : Nat) :
    Twin V { s with env := s.env.pushOn scope, program, depth }
        { t with env := t.env.pushOn scope, program, depth } ∧
      Moves V s t { s with env := s.env.pushOn scope, program, depth }
        { t with env := t.env.pushOn scope, program, depth } := by
  have hclosed : State.Closed V { s with env := s.env.pushOn scope, program, depth } :=
    ⟨hs.frames.push, hs.objects⟩
  have hagree : State.AgreeOn V { s with env := s.env.pushOn scope, program, depth }
      { t with env := t.env.pushOn scope, program, depth } :=
    { hst with frames := hst.frames.push, depth := rfl }
  refine ⟨⟨hclosed, hagree, ?_, rfl, ?_⟩, hclosed, hagree, ⟨.push, .refl⟩, ⟨.push, .refl⟩⟩
  · show t.env.frames.size :: scope = s.env.frames.size :: scope
    rw [hst.frames.size]
  · exact List.forall_mem_cons.2 ⟨hs.frames.new _ (Nat.le_refl _), hscope⟩

theorem block_confines {R : α → Prop} {x : Action α} (hx : x.Confines V R) :
    (within .push x).Confines V R := by
  intro s t hst
  obtain ⟨htwin, hm⟩ := twin_pushOn hst.closed hst.agree hst.seen s.program s.depth
  have hpush : { t with env := t.env.push } =
      { t with env := t.env.pushOn s.env.scope, program := s.program, depth := s.depth } := by
    rw [Environment.push, hst.scope, ← hst.program, ← hst.agree.depth]
  rw [← hpush] at htwin hm
  refine Confined.adjust (hx _ _ htwin) fun s' t' hm' hs ht => ⟨?_, ?_, ?_⟩
  · have hm := hm.trans hm'
    exact ⟨⟨hm.closed.frames, hm.closed.objects⟩, { hm.agree with },
      ⟨hm.left.frames, hm.left.objects⟩, ⟨hm.right.frames, hm.right.objects⟩⟩
  · simp only [State.place, Environment.enter, Place.mk.injEq] at hs ⊢
    exact ⟨trivial, hs.2⟩
  · simp only [State.place, Environment.enter, Place.mk.injEq] at ht ⊢
    exact ⟨trivial, ht.2⟩

section Actions

theorem readName_confines (name : String) : (readName name).Confines V (Value.Seen V) := by
  intro s t hst
  rw [Action.ConfinesAt, readName, readName, hst.lookup_eq]
  split
  · next v hv => exact .done ⟨hst.refl_moves, rfl, rfl, hst.seen_lookup hv⟩
  · exact fail_confines _ s t hst

theorem defineName_confines (name : String) {value : Value} (h : value.Seen V) :
    (defineName name value).Confines V fun _ => True := fun s t hst =>
  .done ⟨hst.define name h, by simp [State.place], by simp [State.place], trivial⟩

theorem assignName_confines (name : String) {value : Value} (h : value.Seen V) :
    (assignName name value).Confines V fun _ => True := by
  intro s t hst
  rw [Action.ConfinesAt, assignName, assignName, hst.owner?_eq]
  split
  · next i hi =>
    have hmem : i ∈ s.env.scope := List.mem_of_find?_eq_some hi
    exact .done ⟨hst.write (hst.seen i hmem) name h, rfl, rfl, trivial⟩
  · exact fail_confines _ s t hst

theorem printLine_confines (text : String) :
    (printLine text).Confines V fun _ => True := fun s t hst =>
  .done ⟨⟨⟨hst.closed.frames, hst.closed.objects⟩,
    { hst.agree with output := by simp [hst.agree.output] }, ⟨.refl, .refl⟩, ⟨.refl, .refl⟩⟩,
    rfl, rfl, trivial⟩

theorem newId_confines : newId.Confines V fun _ => True := by
  intro s t hst
  rw [Action.ConfinesAt, newId, newId, hst.agree.nextId]
  exact .done ⟨⟨⟨hst.closed.frames, hst.closed.objects⟩, { hst.agree with nextId := rfl },
    ⟨.refl, .refl⟩, ⟨.refl, .refl⟩⟩, rfl, rfl, trivial⟩

theorem newFunction_confines (name : Option String) (params : List String) (body : List Stmt) :
    (newFunction name params body).Confines V (Value.Seen V) := by
  refine newId_confines.bind fun id _ s t hst => ?_
  show Step.Locked _ _ (.done (Value.function id ⟨name, params, body, s.env.scope, s.program⟩) s)
    (.done (Value.function id ⟨name, params, body, t.env.scope, t.program⟩) t)
  rw [hst.scope, hst.program]
  exact .done ⟨hst.refl_moves, rfl, rfl, Value.seen_function.2 hst.seen⟩

theorem newObject_confinesAt {s t : State} (hs : s.Closed V) (hst : s.AgreeOn V t)
    (className : String) : (newObject className).ConfinesAt V (Value.Seen V) s t := by
  rw [Action.ConfinesAt, newObject, newObject, hst.objects.size]
  exact .done ⟨⟨⟨hs.frames, hs.objects.push⟩, { hst with objects := hst.objects.push },
    ⟨.refl, .push⟩, ⟨.refl, .push⟩⟩, rfl, rfl,
    Value.seen_object.2 (hs.objects.new _ (Nat.le_refl _))⟩

theorem readField_confines {i : Nat} (hi : V (.object i)) (name : String) :
    (readField i name).Confines V (Value.Seen V) := by
  intro s t hst
  rw [Action.ConfinesAt, readField, readField, hst.agree.objects.bindings i hi]
  split
  · next v hv => exact .done ⟨hst.refl_moves, rfl, rfl, hst.closed.objects.values i hi name v hv⟩
  · exact fail_confines _ s t hst

theorem writeField_confines {i : Nat} (hi : V (.object i)) (name : String) {value : Value}
    (h : value.Seen V) : (writeField i name value).Confines V fun _ => True := fun _ _ hst =>
  .done ⟨⟨⟨hst.closed.frames, hst.closed.objects.insert i name h⟩,
    { hst.agree with objects := hst.agree.objects.insert i name value },
    ⟨.refl, .insert hi name value⟩, ⟨.refl, .insert hi name value⟩⟩, rfl, rfl, trivial⟩

/-- A call ends as the pact says. -/
theorem requestCall_confinesAt {s t : State} (hs : s.Closed V) (hst : s.AgreeOn V t) {f : Function}
    (hf : ∀ i ∈ f.scope, V (.frame i)) {args : List Value} (hargs : ∀ v ∈ args, v.Seen V) :
    (requestCall f args).ConfinesAt V (Value.Seen V) s t := by
  rw [Action.ConfinesAt, requestCall, requestCall, hst.depth]
  split
  · exact fail_confinesAt hs hst _
  · exact .call ⟨hs, hst, hf, hargs⟩ fun r s' t' hr => .ofReply hr

theorem callNative_confinesAt {s t : State} (hs : s.Closed V) (hst : s.AgreeOn V t) (f : Native)
    (args : List Value) : (callNative f args).ConfinesAt V (Value.Seen V) s t := by
  have h := f.builtin.returns_apply s.clock.reading args
  have hmoves : Moves V s t { s with clock := s.clock.after f.builtin }
      { t with clock := s.clock.after f.builtin } :=
    ⟨⟨hs.frames, hs.objects⟩, { hst with clock := rfl }, ⟨.refl, .refl⟩, ⟨.refl, .refl⟩⟩
  rw [Action.ConfinesAt, callNative, callNative, hst.clock]
  cases hr : f.builtin.apply s.clock.reading args with
  | ok v =>
    rw [hr] at h
    exact .done ⟨hmoves, rfl, rfl, Value.Plain.seen h.1⟩
  | error fault => exact .stop ⟨hmoves, rfl, rfl⟩

/-- A call sees no more than the callee and the arguments, whatever is the scope around it. -/
theorem callValue_confinesAt {s t : State} (hs : s.Closed V) (hst : s.AgreeOn V t) {callee : Value}
    (hcallee : callee.Seen V) {args : List Value} (hargs : ∀ v ∈ args, v.Seen V) :
    (callValue callee args).ConfinesAt V (Value.Seen V) s t := by
  unfold callValue
  split
  · exact fail_confinesAt hs hst _
  · split
    · exact fail_confinesAt hs hst _
    · split
      · exact requestCall_confinesAt hs hst (Value.seen_function.1 hcallee) hargs
      · exact callNative_confinesAt hs hst _ _
      · exact newObject_confinesAt hs hst _
      · exact fail_confinesAt hs hst _

end Actions

/-- What holds of code: from twins it runs in lockstep, and sees what it is given only. -/
def confinement (V : Ref → Prop) : ActionLogic where
  World := Unit
  Grows _ _ := True
  Good _ := Value.Seen V
  Makes _ := True
  Holds _ R x := x.Confines V (R ())
  good_mono _ h := h
  good_data h _ := h.seen
  good_literal _ := (Literal.plain_value _).seen
  holds_pure := pure_confines
  holds_fail _ := fail_confines _
  holds_giveUp _ _ _ _ := .stop trivial
  holds_bind hx hg := hx.bind fun a ha => hg () a trivial ha
  holds_blaming span hx := hx.blaming span
  holds_block hx := block_confines (hx () trivial)
  holds_readName := readName_confines
  holds_defineName name _ := defineName_confines name
  holds_assignName name _ := assignName_confines name
  holds_printLine := printLine_confines
  holds_newId := newId_confines
  holds_lambda _ := newFunction_confines _ _ _
  holds_funDecl _ := newFunction_confines _ _ _
  holds_newObject name _ _ hst := newObject_confinesAt hst.closed hst.agree name
  holds_readField name h := readField_confines (Value.seen_object.1 h) name
  holds_writeField name _ h hvalue := writeField_confines (Value.seen_object.1 h) name hvalue
  holds_requestCall h hargs _ _ hst :=
    requestCall_confinesAt hst.closed hst.agree (Value.seen_function.1 h) hargs
  holds_callNative f args _ _ hst := callNative_confinesAt hst.closed hst.agree f args

/-! ### Calls -/

/-- Names that get values one after the other, in the innermost frame. -/
def State.defineAll (pairs : List (String × Value)) (s : State) : State :=
  { s with env := pairs.foldl (fun env e => env.define e.1 e.2) s.env }

theorem Twin.defineAll {pairs : List (String × Value)} (hpairs : ∀ e ∈ pairs, e.2.Seen V)
    {s t : State} (hst : Twin V s t) : Twin V (s.defineAll pairs) (t.defineAll pairs) ∧
      Moves V s t (s.defineAll pairs) (t.defineAll pairs) := by
  induction pairs generalizing s t with
  | nil => exact ⟨hst, hst.refl_moves⟩
  | cons e pairs ih =>
    obtain ⟨he, hpairs⟩ := List.forall_mem_cons.1 hpairs
    have hm := hst.define e.1 he
    have hnext := hst.of_moves hm (by simp [State.place]) (by simp [State.place])
    obtain ⟨htwin, hm'⟩ := ih hpairs hnext
    exact ⟨htwin, hm.trans hm'⟩

/-- The bodies of two calls start as twins. -/
theorem twin_entered {s t : State} (hs : s.Closed V) (hst : s.AgreeOn V t) {f : Function}
    (hf : ∀ i ∈ f.scope, V (.frame i)) {args : List Value} (hargs : ∀ v ∈ args, v.Seen V) :
    Twin V (f.entered args s) (f.entered args t) ∧
      Moves V s t (f.entered args s) (f.entered args t) := by
  obtain ⟨hpush, hm⟩ := twin_pushOn hs hst hf f.program (s.depth + 1)
  have hpairs : ∀ e ∈ f.params.zip args, e.2.Seen V := fun e he =>
    hargs e.2 (List.of_mem_zip he).2
  obtain ⟨htwin, hm'⟩ := hpush.defineAll hpairs
  have hentered : f.entered args t = State.defineAll (f.params.zip args)
      { t with env := t.env.pushOn f.scope, program := f.program, depth := s.depth + 1 } := by
    rw [Function.entered, Function.enter, State.defineAll, hst.depth]
  rw [hentered]
  exact ⟨htwin, hm.trans hm'⟩

theorem confining_sound (V : Ref → Prop) (fuel : Nat) : (confining V).Sound fuel where
  body f args s t hpre := by
    obtain ⟨hs, hst, hf, hargs⟩ := hpre
    obtain ⟨htwin, hm⟩ := twin_entered hs hst hf hargs
    have hbody : (execAll fuel f.body).Confines V fun flow => flow.Gives (Value.Seen V) :=
      (confinement V).execAll (w := ()) fuel f.body fun _ _ => trivial
    rw [Function.apply_eq, Function.apply_eq]
    have hback : ((execAll fuel f.body (f.entered args s)).adjust id s.returned).Locked
        (confining V) (Confined V (fun flow => flow.Gives (Value.Seen V)) s t)
        ((execAll fuel f.body (f.entered args t)).adjust id t.returned) := by
      refine Confined.adjust (hbody _ _ htwin) fun s' t' hm' hs' ht' => ⟨?_, ?_, ?_⟩
      · have hm := hm.trans hm'
        exact ⟨⟨hm.closed.frames, hm.closed.objects⟩,
          { hm.agree with depth := by simp [State.returned, hm.agree.depth] },
          ⟨hm.left.frames, hm.left.objects⟩, ⟨hm.right.frames, hm.right.objects⟩⟩
      · have hdepth : s'.depth = s.depth + 1 := congrArg Place.depth hs'
        simp [State.place, State.returned, Environment.enter, hdepth]
      · have hdepth : t'.depth = t.depth + 1 := congrArg Place.depth ht'
        simp [State.place, State.returned, Environment.enter, hdepth]
    refine hback.bind (fun flow s' t' ha => ?_) fun e s' t' he => ?_
    · obtain ⟨hm, hs, ht, hflow⟩ := ha
      cases flow with
      | next => exact .done ⟨hm, hs, ht, Value.Plain.seen trivial⟩
      | result v => exact .done ⟨hm, hs, ht, hflow⟩
      | leave => exact .stop ⟨hm, hs, ht⟩
    · cases e with
      | error e => exact he
      | outOfFuel => trivial
  giveUp _ _ _ _ _ _ := trivial

/-- **Calls touch only what they can reach.** When a call ends, with a result or with an error, all
frames and objects that were there before and cannot be reached from the callee and the arguments
have the bindings that they had, and the frames around a frame are the same, too. In every state
that differs from this one in such frames and objects only, and maybe in the scope and the program
around the call, the same call ends with the same result or error and the same output, again leaves
what it cannot reach as it is there, and the states after the two calls agree on all else. -/
theorem call_confined {callee : Value} {args : List Value} {s s' : State} {r : Reply} {fuel : Nat}
    (h : (callValue callee args).run fuel s = (r, s')) (hr : r ≠ .error .outOfFuel) :
    (∀ i < s.env.frames.size, ¬ s.Reach (callee :: args) (.frame i) →
      s'.env.frame i = s.env.frame i) ∧
    (∀ i < s.objects.size, ¬ s.Reach (callee :: args) (.object i) →
      s'.objects.getD i ∅ = s.objects.getD i ∅) ∧
    (∀ outer, s.Linked outer → (∀ v ∈ callee :: args, v.Each fun f => Inner outer f.scope) →
      ∃ outer', outer <+: outer' ∧ s'.Linked outer') ∧
    ∀ t, s.AgreeOn (s.Reach (callee :: args)) t →
      ∃ t', (callValue callee args).run fuel t = (r, t') ∧ t'.output = s'.output ∧
        s'.AgreeOn (s.Sees (callee :: args)) t' ∧ t.Spares (s.Sees (callee :: args)) t' := by
  -- what holds of any two states that agree
  have hmoves (t : State) (ht : s.AgreeOn (s.Reach (callee :: args)) t) :
      ∃ t', (callValue callee args).run fuel t = (r, t') ∧
        Moves (s.Sees (callee :: args)) s t s' t' := by
    have hlocked := callValue_confinesAt (s.closed_sees (callee :: args)) ht.sees
      (State.seen_of_mem (.head _)) fun v hv => State.seen_of_mem (.tail _ hv)
    obtain ⟨hsame, hend⟩ := (confining_sound _ fuel).run hlocked
    rw [Action.run] at h
    rw [h] at hsame hend
    refine ⟨((callValue callee args).run fuel t).2, Prod.ext hsame.symm rfl, ?_⟩
    rcases r with (e | _) | v
    · exact hend.1
    · exact absurd rfl hr
    · exact hend.1
  obtain ⟨t', ht', hself⟩ := hmoves s .refl
  refine ⟨fun i hi => hself.left.frame_eq hi, fun i hi => hself.left.object_eq hi,
    fun outer hs hgood => ?_, fun t ht => ?_⟩
  · have hkeeps : linking.Keeps s.program outer _ (callValue callee args) :=
      (linking.logic s.program).callValue (linking_good (hgood _ (.head _))) fun v hv =>
        linking_good (hgood v (.tail _ hv))
    obtain ⟨outer', hle, hs', -⟩ := (hkeeps.run (linking_at_iff.2 hs) h).at_end hr
    exact ⟨outer', hle, linking_at_iff.1 hs'⟩
  · obtain ⟨t', hrun, hm⟩ := hmoves t ht
    exact ⟨t', hrun, hm.agree.output, hm.agree, hm.right⟩

/-- A function that keeps a field of an object in a frame of its own, and changes the field. -/
def takingFunction : Function :=
  let mark : Mark := ⟨0, .point 0⟩
  ⟨some "take", ["o"],
    [.expression mark (.assign mark "n" (.get mark (.var mark "o") "x")),
      .expression mark (.set mark (.var mark "o") "x" (.literal mark .nil)),
      .returns mark (some (.var mark "n"))],
    [3, 1, globalFrame], .empty⟩

/-- A caller with a local variable and two objects. -/
def callingState (secret : Int64) : State :=
  { State.start 0 with
    env := ⟨#[∅, ∅, (∅ : Bindings Value).insert "secret" (.int secret),
      (∅ : Bindings Value).insert "n" .nil], [2, 1, globalFrame]⟩
    objects := #[(∅ : Bindings Value).insert "x" (.int 7),
      (∅ : Bindings Value).insert "x" (.int secret)] }

/-- But for the frame of the local variable and the second object, nothing there is secret. -/
theorem agree_callingState (secret secret' : Int64) :
    (callingState secret).AgreeOn (fun ref => ref ≠ .frame 2 ∧ ref ≠ .object 1)
      (callingState secret') where
  frames := by
    refine ⟨rfl, fun i hi => ?_⟩
    match i with
    | 0 | 1 | 3 | i + 4 => rfl
    | 2 => exact absurd rfl hi.1
  objects := by
    refine ⟨rfl, fun i hi => ?_⟩
    match i with
    | 0 | i + 2 => rfl
    | 1 => exact absurd rfl hi.2
  nextId := rfl
  depth := rfl
  output := rfl
  clock := rfl

/-- From the function and the first object, neither the frame of the local variable nor the second
object can be reached. -/
theorem reach_callingState {secret : Int64} {ref : Ref}
    (h : (callingState secret).Reach [.function 9 takingFunction, .object 0 "Box"] ref) :
    ref ≠ .frame 2 ∧ ref ≠ .object 1 := by
  have hplain (x name : String) (v w : Value) (hw : w.Plain)
      (hv : ((∅ : Bindings Value).insert name w).get? x = some v) : v.Plain := by
    rcases Bindings.eq_or_get?_of_insert hv with rfl | hv
    · exact hw
    · cases hv
  refine State.Closed.of_reach (V := fun ref => ref ≠ .frame 2 ∧ ref ≠ .object 1) ⟨?_, ?_⟩ ?_ h
  · refine ⟨fun i hi x v hv => Value.Plain.seen ?_, fun i hi => ?_⟩
    · match i with
      | 0 | 1 | i + 4 => cases hv
      | 2 => exact absurd rfl hi.1
      | 3 => exact hplain x "n" v .nil trivial hv
    · have hi : 4 ≤ i := hi
      simp
      omega
  · refine ⟨fun i hi x v hv => Value.Plain.seen ?_, fun i hi => ?_⟩
    · match i with
      | i + 2 => cases hv
      | 1 => exact absurd rfl hi.2
      | 0 => exact hplain x "x" v (.int 7) trivial hv
    · have hi : 2 ≤ i := hi
      simp
      omega
  · simp [Value.Seen, Value.refs, takingFunction, globalFrame]

/-- The call changes the object that it is given, and neither its result nor its output depends on
the secret. -/
theorem call_confined_takingFunction : ∃ s' t' : State,
    (callValue (.function 9 takingFunction) [.object 0 "Box"]).run 9 (callingState 1) =
      (.ok (.int 7), s') ∧ ((s'.objects.getD 0 ∅).get? "x" = some .nil) ∧
    s'.env.frame 2 = (callingState 1).env.frame 2 ∧
    s'.objects.getD 1 ∅ = (callingState 1).objects.getD 1 ∅ ∧
    (callValue (.function 9 takingFunction) [.object 0 "Box"]).run 9 (callingState 2) =
      (.ok (.int 7), t') ∧ t'.output = s'.output := by
  have hruns : ∃ s', (callValue (.function 9 takingFunction) [.object 0 "Box"]).run 9
      (callingState 1) = (.ok (.int 7), s') ∧ (s'.objects.getD 0 ∅).get? "x" = some .nil :=
    ⟨_, rfl, rfl⟩
  obtain ⟨s', hrun, hfield⟩ := hruns
  obtain ⟨hframes, hobjects, -, hother⟩ := call_confined hrun (by simp)
  obtain ⟨t', hrun', houtput, -⟩ := hother (callingState 2)
    ((agree_callingState 1 2).mono fun ref => reach_callingState)
  have hframe : ¬ (callingState 1).Reach [.function 9 takingFunction, .object 0 "Box"] (.frame 2) :=
    fun h => (reach_callingState h).1 rfl
  have hobject :
      ¬ (callingState 1).Reach [.function 9 takingFunction, .object 0 "Box"] (.object 1) :=
    fun h => (reach_callingState h).2 rfl
  exact ⟨s', t', hrun, hfield, hframes 2 (by decide) hframe, hobjects 1 (by decide) hobject, hrun',
    houtput⟩

end Lox
