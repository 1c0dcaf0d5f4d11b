import Lox.Proofs.ActionLogic
import Lox.Proofs.Independence
import Lox.Proofs.Reachability

/-!
# Programs without loops end

Functions may call themselves and each other in every way, but only so many bodies run at a time. So
a program ends, if neither it nor any function that it can reach has a loop.

* `Loopless`, `Function.Loopless`: code without loops;
* `exec_loopless`: such code does the same with any fuel;
* `State.Live`, `State.Finds`: what can be reached from the frames of the scope;
* `State.Tame`, `bounded`: what is found has no loops, and a call at a given depth keeps it so;
* `looplessness`: the logic of code without loops, from which it never gives up;
* `Function.Answers`: a call comes to an end, whatever waits for it;
* `bounded_answers`: by induction on how much deeper calls may be, all calls do;
* `loopless_halts`.
-/

namespace Lox

/-! ### Code without loops -/

/-- A node is a loop. -/
def Node.isLoop : Node → Bool
  | stmt (.whileDo _ _ _) => true
  | _ => false

/-- None of several nodes is a loop. -/
def Loopless (ns : List Node) : Prop := ∀ n ∈ ns, n.isLoop = false

instance (ns : List Node) : Decidable (Loopless ns) :=
  inferInstanceAs (Decidable (∀ n ∈ ns, n.isLoop = false))

/-- The body of a function has no loops, nor have the functions that are made in it. -/
def Function.Loopless (f : Function) : Prop := Lox.Loopless (nodesAll f.body)

namespace Loopless

variable {n : Node} {ms ns : List Node}

theorem cons (h : Loopless (n :: ns)) : n.isLoop = false ∧ Loopless ns := List.forall_mem_cons.1 h

theorem append (h : Loopless (ms ++ ns)) : Loopless ms ∧ Loopless ns := List.forall_mem_append.1 h

end Loopless

mutual

/-- Only loops take fuel. -/
theorem exec_loopless (fuel fuel' : Nat) : ∀ s : Stmt, Loopless s.nodes →
    exec fuel s = exec fuel' s
  | .block _ body, h => by rw [exec, exec, execAll_loopless fuel fuel' body h.cons.2]
  | .ifElse _ c t e, h => by
    obtain ⟨hct, he⟩ := h.cons.2.append
    rw [exec, exec, exec_loopless fuel fuel' t hct.append.2,
      execOption_loopless fuel fuel' e he]
  | .whileDo _ _ _, h => nomatch h.cons.1
  | .expression _ _, _ | .print _ _, _ | .varDecl _ _ _, _ | .funDecl _ _ _ _, _
  | .returns _ _, _ | .breaks _ _, _ | .classDecl _ _, _ => by rw [exec, exec]

theorem execOption_loopless (fuel fuel' : Nat) : ∀ s : Option Stmt, Loopless (nodesElse s) →
    execOption fuel s = execOption fuel' s
  | none, _ => by rw [execOption, execOption]
  | some s, h => by rw [execOption, execOption, exec_loopless fuel fuel' s h]

theorem execAll_loopless (fuel fuel' : Nat) : ∀ ss : List Stmt, Loopless (nodesAll ss) →
    execAll fuel ss = execAll fuel' ss
  | [], _ => by rw [execAll, execAll]
  | s :: rest, h => by
    obtain ⟨hs, hrest⟩ := Loopless.append h
    rw [execAll, execAll, exec_loopless fuel fuel' s hs, execAll_loopless fuel fuel' rest hrest]

end

theorem runStatements_loopless (fuel fuel' : Nat) {ss : List Stmt} (h : Loopless (nodesAll ss)) :
    runStatements fuel ss = runStatements fuel' ss := by
  induction ss with
  | nil => rfl
  | cons s rest ih =>
    obtain ⟨hs, hrest⟩ := Loopless.append h
    rw [runStatements, runStatements, exec_loopless fuel fuel' s hs, ih hrest]

theorem Function.Loopless.apply_eq {f : Function} (h : f.Loopless) (fuel fuel' : Nat)
    (args : List Value) : f.apply fuel args = f.apply fuel' args := by
  rw [apply, apply, execAll_loopless fuel fuel' f.body h]

/-! ### What code finds -/

/-- What can be reached from the frames of the scope. -/
inductive State.Live (s : State) : Ref → Prop
  | scope {i : Nat} (hi : i ∈ s.env.scope) : Live s (.frame i)
  | frame {i : Nat} {x : String} {v : Value} {ref : Ref} (hi : Live s (.frame i))
    (hv : (s.env.frame i).get? x = some v) (h : ref ∈ v.refs) : Live s ref
  | object {i : Nat} {x : String} {v : Value} {ref : Ref} (hi : Live s (.object i))
    (hv : (s.objects.getD i ∅).get? x = some v) (h : ref ∈ v.refs) : Live s ref

/-- A value of a name or a field that can be reached from the frames of the scope. -/
inductive State.Finds (s : State) : Value → Prop
  | name {i : Nat} {x : String} {v : Value} (hi : s.Live (.frame i))
    (hv : (s.env.frame i).get? x = some v) : Finds s v
  | field {i : Nat} {x : String} {v : Value} (hi : s.Live (.object i))
    (hv : (s.objects.getD i ∅).get? x = some v) : Finds s v

/-- A value that refers to what is seen only, and is no function with a loop. -/
structure Value.Tame (V : Ref → Prop) (v : Value) : Prop where
  seen : v.Seen V
  each : v.Each Function.Loopless

/-- The values of seen names and fields are tame, and the scope is seen. -/
structure State.Tame (V : Ref → Prop) (s : State) : Prop where
  frames : Store.Closed (Value.Tame V) (fun i => V (.frame i)) s.env.frames
  objects : Store.Closed (Value.Tame V) (fun i => V (.object i)) s.objects
  scope : ∀ i ∈ s.env.scope, V (.frame i)

/-- What is live, and what is still to be made. -/
def State.Extent (s : State) : Ref → Prop
  | .frame i => s.Live (.frame i) ∨ s.env.frames.size ≤ i
  | .object i => s.Live (.object i) ∨ s.objects.size ≤ i

theorem State.Live.extent {s : State} {ref : Ref} (h : s.Live ref) : s.Extent ref := by
  cases ref with
  | frame i => exact .inl h
  | object i => exact .inl h

/-- If no function with a loop is found, all that is found is tame. -/
theorem State.tame_extent {s : State}
    (hs : ∀ id f, s.Finds (.function id f) → f.Loopless) : s.Tame s.Extent where
  frames := by
    refine ⟨fun i hi x v hv => ?_, fun i hi => .inr hi⟩
    rcases hi with hi | hi
    · refine ⟨fun ref href => (Live.frame hi hv href).extent, ?_⟩
      cases v with
      | function id f => exact hs id f (.name hi hv)
      | _ => trivial
    · rw [Store.getD_eq_empty hi] at hv
      cases hv
  objects := by
    refine ⟨fun i hi x v hv => ?_, fun i hi => .inr hi⟩
    rcases hi with hi | hi
    · refine ⟨fun ref href => (Live.object hi hv href).extent, ?_⟩
      cases v with
      | function id f => exact hs id f (.field hi hv)
      | _ => trivial
    · rw [Store.getD_eq_empty hi] at hv
      cases hv
  scope i hi := .inl (.scope hi)

section Changes

variable {V : Ref → Prop} {v : Value} {s t : State}

theorem Value.Plain.tame (h : v.Plain) : v.Tame V := ⟨h.seen, h.each⟩

theorem State.Tame.write (h : s.Tame V) (i : Nat) (name : String) {value : Value}
    (hvalue : value.Tame V) : State.Tame V { s with env := s.env.write i name value } :=
  ⟨h.frames.insert i name hvalue, h.objects, h.scope⟩

theorem State.Tame.define (h : s.Tame V) (name : String) {value : Value} (hvalue : value.Tame V) :
    State.Tame V { s with env := s.env.define name value } := by
  rw [Environment.define]
  split
  · exact h
  · exact h.write _ name hvalue

/-- A new frame is seen. -/
theorem State.Tame.pushOn (h : s.Tame V) {scope : Scope} (hscope : ∀ i ∈ scope, V (.frame i)) :
    State.Tame V { s with env := s.env.pushOn scope } where
  frames := h.frames.push
  objects := h.objects
  scope := List.forall_mem_cons.2 ⟨h.frames.new _ (Nat.le_refl _), hscope⟩

theorem State.Tame.entered (h : s.Tame V) {f : Function} (hf : ∀ i ∈ f.scope, V (.frame i))
    {args : List Value} (hargs : ∀ v ∈ args, v.Tame V) : (f.entered args s).Tame V := by
  have hpairs : ∀ e ∈ f.params.zip args, e.2.Tame V := fun e he =>
    hargs e.2 (List.of_mem_zip he).2
  have hdefine : ∀ (pairs : List (String × Value)) (u : State), u.Tame V →
      (∀ e ∈ pairs, e.2.Tame V) →
      State.Tame V { u with env := pairs.foldl (fun env e => env.define e.1 e.2) u.env } := by
    intro pairs
    induction pairs with
    | nil => exact fun u hu _ => hu
    | cons e pairs ih =>
      intro u hu hpairs
      obtain ⟨he, hpairs⟩ := List.forall_mem_cons.1 hpairs
      exact ih _ (hu.define e.1 he) hpairs
  have henter := hdefine _ _ (h.pushOn hf) hpairs
  exact ⟨henter.frames, henter.objects, henter.scope⟩

/-- The scope that is put back was seen before. -/
theorem State.Tame.back (h : s.Tame V) (ht : t.Tame V) :
    State.Tame V { t with env := t.env.enter s.env.scope } :=
  ⟨ht.frames, ht.objects, h.scope⟩

end Changes

/-! ### A logic of code without loops -/

/-- How an action ends that starts where `d` bodies are running: it does not give up, and its result
is as `R` says. -/
structure Settled {α : Type} (V : Ref → Prop) (d : Nat) (R : α → Prop) (r : Except Stop α)
    (t : State) : Prop where
  result : match r with
    | .ok a => R a
    | .error e => e ≠ .outOfFuel
  tame : t.Tame V
  depth : t.depth = d

/-- Where `d` bodies are running, a function without loops is called, unless these are too many. -/
def bounded (V : Ref → Prop) (d : Nat) : Contract where
  pre f args s := s.Tame V ∧ s.depth = d ∧ d < maxDepth ∧ (∀ i ∈ f.scope, V (.frame i)) ∧
    f.Loopless ∧ ∀ v ∈ args, v.Tame V
  post _ _ _ := Settled V d (Value.Tame V)

/-- Where `d` bodies are running, an action does not give up. -/
def Action.Settles {α : Type} (V : Ref → Prop) (d : Nat) (R : α → Prop) (x : Action α) : Prop :=
  ∀ s, s.Tame V → s.depth = d → (x s).Meets (bounded V d) (Settled V d R)

section Rules

variable {α β : Type} {V : Ref → Prop} {d : Nat} {R : α → Prop} {Q : β → Prop}

theorem Settled.mono {R' : α → Prop} {r : Except Stop α} {t : State} (h : Settled V d R r t)
    (hR : ∀ a, R a → R' a) : Settled V d R' r t := by
  refine ⟨?_, h.tame, h.depth⟩
  have hresult := h.result
  cases r with
  | ok a => exact hR a hresult
  | error e => exact hresult

theorem pure_settles {a : α} (h : R a) : (pure a : Action α).Settles V d R :=
  fun _ hs hd => ⟨h, hs, hd⟩

theorem fail_settles (fault : Fault) : (fail fault : Action α).Settles V d R :=
  fun _ hs hd => ⟨by simp, hs, hd⟩

theorem Action.Settles.bind {x : Action α} {g : α → Action β} (hx : x.Settles V d R)
    (hg : ∀ a, R a → (g a).Settles V d Q) : (x >>= g).Settles V d Q := by
  intro s hs hd
  rw [bind_apply]
  exact (hx s hs hd).bind (fun a t ht => hg a ht.result t ht.tame ht.depth)
    fun e t ht => ⟨ht.result, ht.tame, ht.depth⟩

theorem Action.Settles.blaming {x : Action α} (span : Span) (hx : x.Settles V d R) :
    (blaming span x).Settles V d R := by
  intro s hs hd
  refine (hx s hs hd).adjust (fun a t ht => ht) fun e t ht => ⟨?_, ht.tame, ht.depth⟩
  cases e with
  | error e => simp [Stop.blame]
  | outOfFuel => exact absurd rfl ht.result

theorem block_settles {x : Action α} (hx : x.Settles V d R) :
    (within .push x).Settles V d R := by
  intro s hs hd
  exact (hx _ (hs.pushOn hs.scope) hd).adjust
    (fun a t ht => ⟨ht.result, hs.back ht.tame, ht.depth⟩)
    fun e t ht => ⟨ht.result, hs.back ht.tame, ht.depth⟩

theorem readName_settles (name : String) : (readName name).Settles V d (Value.Tame V) := by
  intro s hs hd
  rw [readName]
  split
  · next v hv =>
    obtain ⟨i, hi, hfound⟩ := List.exists_of_findSome?_eq_some hv
    exact ⟨hs.frames.values i (hs.scope i hi) name v hfound, hs, hd⟩
  · exact fail_settles _ s hs hd

theorem assignName_settles (name : String) {value : Value} (h : value.Tame V) :
    (assignName name value).Settles V d fun _ => True := by
  intro s hs hd
  rw [assignName]
  split
  · exact ⟨trivial, hs.write _ name h, hd⟩
  · exact fail_settles _ s hs hd

theorem newFunction_settles {name : Option String} {params : List String} {body : List Stmt}
    (h : Loopless (nodesAll body)) :
    (newFunction name params body).Settles V d (Value.Tame V) :=
  fun _ hs hd => ⟨⟨Value.seen_function.2 hs.scope, h⟩, ⟨hs.frames, hs.objects, hs.scope⟩, hd⟩

/-- A new object is seen. -/
theorem newObject_settles (name : String) : (newObject name).Settles V d (Value.Tame V) :=
  fun _ hs hd => ⟨⟨Value.seen_object.2 (hs.objects.new _ (Nat.le_refl _)), trivial⟩,
    ⟨hs.frames, hs.objects.push, hs.scope⟩, hd⟩

theorem readField_settles {i : Nat} (hi : V (.object i)) (name : String) :
    (readField i name).Settles V d (Value.Tame V) := by
  intro s hs hd
  rw [readField]
  split
  · next v hv => exact ⟨hs.objects.values i hi name v hv, hs, hd⟩
  · exact fail_settles _ s hs hd

theorem writeField_settles (i : Nat) (name : String) {value : Value} (h : value.Tame V) :
    (writeField i name value).Settles V d fun _ => True :=
  fun _ hs hd => ⟨trivial, ⟨hs.frames, hs.objects.insert i name h, hs.scope⟩, hd⟩

theorem requestCall_settles {f : Function} (hscope : ∀ i ∈ f.scope, V (.frame i))
    (hf : f.Loopless) {args : List Value} (hargs : ∀ v ∈ args, v.Tame V) :
    (requestCall f args).Settles V d (Value.Tame V) := by
  intro s hs hd
  rw [requestCall]
  split
  · exact fail_settles _ s hs hd
  · exact ⟨⟨hs, hd, by omega, hscope, hf, hargs⟩, fun r t hr => Step.meets_ofReply hr⟩

theorem callNative_settles (f : Native) (args : List Value) :
    (callNative f args).Settles V d (Value.Tame V) := by
  intro s hs hd
  have h := f.builtin.returns_apply s.clock.reading args
  rw [callNative]
  cases hr : f.builtin.apply s.clock.reading args with
  | ok v =>
    rw [hr] at h
    exact ⟨Value.Plain.tame h.1, ⟨hs.frames, hs.objects, hs.scope⟩, hd⟩
  | error fault => exact fail_settles fault _ ⟨hs.frames, hs.objects, hs.scope⟩ hd

end Rules

/-- What holds of code without loops: it does not give up. -/
def looplessness (V : Ref → Prop) (d : Nat) : ActionLogic where
  World := Unit
  Grows _ _ := True
  Good _ := Value.Tame V
  Makes n := Loopless n.nodes
  Holds _ R x := x.Settles V d (R ())
  good_mono _ h := h
  good_data h _ := h.tame
  good_literal _ := (Literal.plain_value _).tame
  holds_pure := pure_settles
  holds_fail _ := fail_settles _
  holds_giveUp h := nomatch h.cons.1
  holds_bind hx hg := hx.bind fun a ha => hg () a trivial ha
  holds_blaming span hx := hx.blaming span
  holds_block hx := block_settles (hx () trivial)
  holds_readName := readName_settles
  holds_defineName name _ h _ hs hd := ⟨trivial, hs.define name h, hd⟩
  holds_assignName name _ := assignName_settles name
  holds_printLine _ _ hs hd := ⟨trivial, ⟨hs.frames, hs.objects, hs.scope⟩, hd⟩
  holds_newId _ hs hd := ⟨trivial, ⟨hs.frames, hs.objects, hs.scope⟩, hd⟩
  holds_lambda h := newFunction_settles h.cons.2
  holds_funDecl h := newFunction_settles h.cons.2
  holds_newObject := newObject_settles
  holds_readField name h := readField_settles (Value.seen_object.1 h.seen) name
  holds_writeField name _ _ h := writeField_settles _ name h
  holds_requestCall hf hargs :=
    requestCall_settles (Value.seen_function.1 hf.seen) hf.each hargs
  holds_callNative := callNative_settles

theorem Loopless.covers {V : Ref → Prop} {d : Nat} {ns : List Node} (h : Loopless ns)
    (hwhole : Whole ns) : (looplessness V d).Covers ns :=
  fun n hn m hm => h m (hwhole n hn hm)

/-- The statements of a program do not give up. -/
theorem runStatements_settles {V : Ref → Prop} {d : Nat} (fuel : Nat) {ss : List Stmt}
    (h : Loopless (nodesAll ss)) : (runStatements fuel ss).Settles V d fun _ => True := by
  induction ss with
  | nil => exact pure_settles trivial
  | cons stmt rest ih =>
    obtain ⟨hstmt, hrest⟩ := Loopless.append h
    have hexec : (exec fuel stmt).Settles V d _ :=
      (looplessness V d).exec (w := ()) fuel stmt (hstmt.covers stmt.whole_nodes)
    rw [runStatements]
    refine hexec.bind fun flow _ => ?_
    cases flow with
    | next => exact ih hrest
    | leave | result v => exact fun _ hs hd => ⟨by simp, hs, hd⟩

/-- The body of a function that is called where `d` bodies are running is one more. -/
theorem apply_settles {V : Ref → Prop} {d : Nat} {f : Function} {args : List Value} {s : State}
    (h : (bounded V d).pre f args s) (fuel : Nat) :
    (f.apply fuel args s).Meets (bounded V (d + 1)) (Settled V d (Value.Tame V)) := by
  obtain ⟨hs, hd, -, hscope, hf, hargs⟩ := h
  have hexec : (execAll fuel f.body).Settles V (d + 1) fun flow => flow.Gives (Value.Tame V) :=
    (looplessness V (d + 1)).execAll (w := ()) fuel f.body
      (Loopless.covers hf (whole_nodesAll f.body))
  have hbody := hexec _ (hs.entered hscope hargs) (congrArg (· + 1) hd)
  have hback : ((execAll fuel f.body (f.entered args s)).adjust id s.returned).Meets
      (bounded V (d + 1)) (Settled V d fun flow => flow.Gives (Value.Tame V)) := by
    have put_back {t : State} (ht : t.Tame V) : (s.returned t).Tame V :=
      have hback := hs.back ht
      ⟨hback.frames, hback.objects, hback.scope⟩
    refine hbody.adjust (fun flow t ht => ⟨ht.result, put_back ht.tame, ?_⟩)
      fun e t ht => ⟨ht.result, put_back ht.tame, ?_⟩
    · simp [State.returned, ht.depth]
    · simp [State.returned, ht.depth]
  rw [Function.apply_eq]
  refine hback.bind (fun flow t ht => ?_) fun e t ht => ⟨ht.result, ht.tame, ht.depth⟩
  cases flow with
  | next => exact ⟨Value.Plain.tame trivial, ht.tame, ht.depth⟩
  | result v => exact ⟨ht.result, ht.tame, ht.depth⟩
  | leave => exact ⟨by simp, ht.tame, ht.depth⟩

/-! ### Calls come to an end -/

/-- A call comes to an end, whatever waits for it. -/
def Function.Answers (f : Function) (args : List Value) (s : State) (r : Reply) (t : State) :
    Prop :=
  ∃ n, ∀ fuel m stack,
    runCalls fuel (n + m) stack (f.apply fuel args s) = runCalls fuel m stack (.ofReply r t)

/-- All calls that a contract allows come to an end, and keep the contract. -/
def Contract.Answers (C : Contract) : Prop :=
  ∀ f args s, C.pre f args s → ∃ r t, f.Answers args s r t ∧ C.post f args s r t

section Answers

variable {C : Contract}

/-- A step comes to an end, if all calls that it asks for do, whatever waits for it. -/
theorem Step.Meets.answers (hC : C.Answers) {Q : Condition} {x : Step Value}
    (hx : x.Meets C Q) : ∃ r t, Q r t ∧ ∃ n, ∀ fuel m stack,
      runCalls fuel (n + m) stack x = runCalls fuel m stack (.ofReply r t) := by
  induction x with
  | done v s => exact ⟨.ok v, s, hx, 0, fun fuel m stack => by rw [Nat.zero_add]; rfl⟩
  | stop e s => exact ⟨.error e, s, hx, 0, fun fuel m stack => by rw [Nat.zero_add]; rfl⟩
  | call f args s k ih =>
    obtain ⟨r, t, ⟨n, hcall⟩, hpost⟩ := hC f args s hx.1
    obtain ⟨q, u, hq, n', hrest⟩ := ih r t (hx.2 r t hpost)
    exact ⟨q, u, hq, n + n' + 2, fun fuel => runCalls_call (hcall fuel) (hrest fuel)⟩

/-- A step comes to an end with enough fuel, if all calls that it asks for do. -/
theorem Step.Meets.exists_run {α : Type} (hC : C.Answers) {Q : Except Stop α → State → Prop}
    {x : Step α} (hx : x.Meets C Q) :
    ∃ r t, Q r t ∧ ∃ enough, ∀ fuel ≥ enough, x.run fuel = (r, t) := by
  induction x with
  | done a s => exact ⟨.ok a, s, hx, 0, fun _ _ => rfl⟩
  | stop e s => exact ⟨.error e, s, hx, 0, fun _ _ => rfl⟩
  | call f args s k ih =>
    obtain ⟨r, t, ⟨n, hcall⟩, hpost⟩ := hC f args s hx.1
    obtain ⟨q, u, hq, enough, hrest⟩ := ih r t (hx.2 r t hpost)
    refine ⟨q, u, hq, max (n + 1) enough, fun fuel hfuel => ?_⟩
    obtain ⟨m, hm⟩ := Nat.exists_eq_add_of_le (Nat.le_trans (Nat.le_max_left _ _) hfuel)
    have hanswer : runCalls fuel fuel [] (f.apply fuel args s) = (r, t) := by
      rw [show runCalls fuel fuel = runCalls fuel (n + (m + 1)) by congr 1; omega, hcall]
      cases r <;> rfl
    rw [Step.run_call, hanswer]
    exact hrest fuel (Nat.le_trans (Nat.le_max_right _ _) hfuel)

end Answers

/-- Functions without loops come to an end, by induction on how many bodies may still be entered:
where there are too many, none is called. -/
theorem bounded_answers (V : Ref → Prop) (d : Nat) : (bounded V d).Answers := by
  intro f args s hpre
  have hf : f.Loopless := hpre.2.2.2.2.1
  have hdepth : d < maxDepth := hpre.2.2.1
  obtain ⟨r, t, hr, n, hcall⟩ := (apply_settles hpre 0).answers (bounded_answers V (d + 1))
  refine ⟨r, t, ⟨n, fun fuel m stack => ?_⟩, hr⟩
  rw [hf.apply_eq fuel 0]
  exact hcall fuel m stack
termination_by maxDepth - d

/-! ### Programs -/

/-- **Programs without loops end.** A program without a loop, also in its functions, ends with
success or with an error in every state in which no function with a loop can be reached from the
frames of the scope, whatever functions call each other or themselves. -/
theorem loopless_halts {p : Program} (hp : Loopless p.nodes) {s : State}
    (hs : ∀ id f, s.Finds (.function id f) → f.Loopless) :
    ∃ t, Halts p.statements { s with program := p } (.ok ()) t ∨
      ∃ e, Halts p.statements { s with program := p } (.error (.error e)) t := by
  have htame := State.tame_extent hs
  have hsettles := runStatements_settles (V := s.Extent) (d := s.depth) 0 hp
    { s with program := p } ⟨htame.frames, htame.objects, htame.scope⟩ rfl
  obtain ⟨r, t, hr, enough, hrun⟩ := hsettles.exists_run (bounded_answers s.Extent s.depth)
  have hend : (runStatements enough p.statements).run enough { s with program := p } = (r, t) := by
    rw [runStatements_loopless enough 0 hp]
    exact hrun enough (Nat.le_refl _)
  rcases r with (e | _) | _
  · exact ⟨t, .inr ⟨e, by simp, enough, hend⟩⟩
  · exact absurd rfl hr.result
  · exact ⟨t, .inl ⟨by simp, enough, hend⟩⟩

/-- A function that calls its argument with itself. -/
def doublingFunction : Function :=
  let mark : Mark := ⟨0, .point 0⟩
  ⟨some "double", ["f"],
    [.returns mark (some (.call mark (.var mark "f") [.var mark "f"]))], [1, globalFrame], .empty⟩

/-- The function is the value of a name and of a field. -/
def doublingState : State :=
  { State.start 0 with
    env := ⟨#[∅, ((∅ : Bindings Value).insert "box" (.object 0 "Box")).insert "double"
      (.function 9 doublingFunction)], [1, globalFrame]⟩
    objects := #[(∅ : Bindings Value).insert "f" (.function 9 doublingFunction)] }

/-- A call of the function with itself. -/
def doublingProgram : Program :=
  let mark : Mark := ⟨0, .point 0⟩
  ⟨[.expression mark (.call mark (.get mark (.var mark "box") "f") [.var mark "double"])], 4, 1, []⟩

/-- Of itself, the function would call itself without end. -/
theorem loopless_halts_doubling :
    Loopless doublingProgram.nodes ∧
    (∀ id f, doublingState.Finds (.function id f) → f.Loopless) ∧
    ∃ t, Halts doublingProgram.statements { doublingState with program := doublingProgram }
        (.ok ()) t ∨
      ∃ e, Halts doublingProgram.statements { doublingState with program := doublingProgram }
        (.error (.error e)) t := by
  have hprogram : Loopless doublingProgram.nodes := by decide
  have hfunction : doublingFunction.Loopless := by
    show Loopless (nodesAll doublingFunction.body)
    decide
  have hstate : ∀ id f, doublingState.Finds (.function id f) → f.Loopless := by
    intro id f hf
    cases hf with
    | @name i x _ _ hv =>
      match i with
      | 0 | i + 2 => cases hv
      | 1 =>
        rcases Bindings.eq_or_get?_of_insert hv with heq | hv
        · cases heq
          exact hfunction
        · rcases Bindings.eq_or_get?_of_insert hv with heq | hv
          · cases heq
          · cases hv
    | @field i x _ _ hv =>
      match i with
      | i + 1 => cases hv
      | 0 =>
        rcases Bindings.eq_or_get?_of_insert hv with heq | hv
        · cases heq
          exact hfunction
        · cases hv
  exact ⟨hprogram, hstate, loopless_halts hprogram hstate⟩

end Lox
