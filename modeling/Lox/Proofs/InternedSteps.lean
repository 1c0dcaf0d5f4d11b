import Lox.Proofs.InternedStates

/-!
# Interned actions

From states that represent states, actions on interned names come to the same ends as the actions on
the names themselves, and ask for the same calls.

* `Interned.SameEnd`, `Interned.Step.Represents`: ends that are the same, and steps that come to
  such ends whatever comes of the calls;
* `Interned.Action.Represents`: actions, with a rule for each way to build them;
* one lemma for each action on names, objects and calls.
-/

namespace Lox.Interned

variable {α β γ δ : Type} {t : NameTable}

/-! ### Steps -/

/-- A value with the numbers of a table, which holds its names and texts. -/
structure Value.Represents (t : NameTable) (w : Value) (v : Lox.Value) : Prop where
  eq : w = v.interned t
  held : v.Held t

theorem Value.Represents.data {v : Lox.Value} (h : v.Plain) : Represents t (.data v) v :=
  ⟨h.interned_eq.symm, h.each⟩

/-- The same way to end, with results related by `R`. -/
inductive SameEnd (R : β → α → Prop) : Except Stop β → Except Stop α → Prop
  | ok {b : β} {a : α} (h : R b a) : SameEnd R (.ok b) (.ok a)
  | error (e : Stop) : SameEnd R (.error e) (.error e)

/-- The same result of a call, with the numbers of a table. -/
abbrev Reply.Represents (t : NameTable) : Reply → Lox.Reply → Prop :=
  SameEnd (Value.Represents t)

/-- Two steps come to the same end, with results related by `R`, or ask for the same call, and go on
so from the same result of it. -/
inductive Step.Represents (t : NameTable) (R : β → α → Prop) : Step β → Lox.Step α → Prop
  | done {b : β} {a : α} {u : State} {s : Lox.State} (hab : R b a) (hs : u.Represents t s) :
    Represents t R (.done b u) (.done a s)
  | stop (e : Stop) {u : State} {s : Lox.State} (hs : u.Represents t s) :
    Represents t R (.stop e u) (.stop e s)
  | call {f : Lox.Function} {args : List Lox.Value} {u : State} {s : Lox.State}
    {k : Reply → State → Step β} {k' : Lox.Reply → Lox.State → Lox.Step α}
    (hf : f.Held t) (hargs : ∀ v ∈ args, v.Held t) (hs : u.Represents t s)
    (hk : ∀ r r' u s, Reply.Represents t r r' → u.Represents t s →
      Represents t R (k r u) (k' r' s)) :
    Represents t R (.call (f.interned t) (args.map (Lox.Value.interned t)) u k)
      (.call f args s k')

namespace Step.Represents

variable {R : β → α → Prop} {Q : δ → γ → Prop} {x : Step β} {y : Lox.Step α}

theorem bind (h : x.Represents t R y) {g : β → State → Step δ}
    {g' : α → Lox.State → Lox.Step γ}
    (hg : ∀ b a u s, R b a → u.Represents t s → (g b u).Represents t Q (g' a s)) :
    (x.bind g).Represents t Q (y.bind g') := by
  induction h with
  | done hab hs => exact hg _ _ _ _ hab hs
  | stop e hs => exact .stop e hs
  | call hf hargs hs hk ih => exact .call hf hargs hs fun r r' u s hr hst => ih r r' u s hr hst

theorem adjust (h : x.Represents t R y) (reason : Stop → Stop) {after : State → State}
    {after' : Lox.State → Lox.State}
    (hafter : ∀ u s, u.Represents t s → (after u).Represents t (after' s)) :
    (x.adjust reason after).Represents t R (y.adjust reason after') := by
  induction h with
  | done hab hs => exact .done hab (hafter _ _ hs)
  | stop e hs => exact .stop _ (hafter _ _ hs)
  | call hf hargs hs hk ih => exact .call hf hargs hs fun r r' u s hr hst => ih r r' u s hr hst

/-- The program changes on one side, where nothing is read in it. -/
theorem inProgram (h : x.Represents t R y) (program : Program) :
    x.Represents t R (y.adjust id fun s => { s with program }) := by
  induction h with
  | done hab hs => exact .done hab (hs.withProgram program)
  | stop e hs => exact .stop e (hs.withProgram program)
  | call hf hargs hs hk ih => exact .call hf hargs hs fun r r' u s hr hst => ih r r' u s hr hst

theorem ofReply {r : Reply} {r' : Lox.Reply} (hr : Reply.Represents t r r') {u : State}
    {s : Lox.State} (hs : u.Represents t s) :
    (Step.ofReply r u).Represents t (Value.Represents t) (Lox.Step.ofReply r' s) := by
  cases hr with
  | ok h => exact .done h hs
  | error e => exact .stop e hs

end Step.Represents

/-! ### Rules -/

/-- From all states that represent states, two actions take such steps. -/
def Action.Represents (t : NameTable) (R : β → α → Prop) (x : Action β) (y : Lox.Action α) :
    Prop :=
  ∀ u s, u.Represents t s → (x u).Represents t R (y s)

section Rules

variable {R : β → α → Prop} {Q : δ → γ → Prop} {x : Action β} {y : Lox.Action α}

theorem pure_represents {b : β} {a : α} (h : R b a) :
    (pure b : Action β).Represents t R (pure a) := fun _ _ hs => .done h hs

theorem stopWith_represents (e : Stop) : (stopWith e : Action β).Represents t R (Lox.stopWith e) :=
  fun _ _ hs => .stop e hs

theorem fail_represents (fault : Fault) :
    (fail fault : Action β).Represents t R (Lox.fail fault) := stopWith_represents _

namespace Action.Represents

theorem bind (hx : x.Represents t R y) {g : β → Action δ} {g' : α → Lox.Action γ}
    (hg : ∀ b a, R b a → (g b).Represents t Q (g' a)) :
    (x >>= g).Represents t Q (y >>= g') := by
  intro u s hs
  rw [Lox.Action.bind_apply]
  exact (hx u s hs).bind fun b a u s hab hs => hg b a hab u s hs

theorem blaming (hx : x.Represents t R y) (span : Span) :
    (blaming span x).Represents t R (Lox.blaming span y) := fun u s hs =>
  (hx u s hs).adjust _ fun _ _ hs => hs

theorem within (hx : x.Represents t R y) {enter : Environment → Environment}
    {enter' : Lox.Environment → Lox.Environment}
    (henter : t.Distinct → ∀ e env, e.Represents t env → (enter e).Represents t (enter' env)) :
    (within enter x).Represents t R (Lox.within enter' y) := by
  intro u s hs
  refine (hx _ _ (hs.withEnv (henter hs.distinct _ _ hs.env))).adjust _ fun u' s' hs' => ?_
  rw [hs.env.scope]
  exact hs'.withEnv (hs'.env.enter s.env.scope)

theorem counted (hx : x.Represents t R y) : (counted x).Represents t R (Lox.counted y) := by
  intro u s hs
  have hs : State.Represents t { u with depth := u.depth + 1 } { s with depth := s.depth + 1 } :=
    { hs with depth := congrArg (· + 1) hs.depth }
  exact (hx _ _ hs).adjust _ fun u s hs => { hs with depth := congrArg (· - 1) hs.depth }

theorem inProgram (hx : x.Represents t R y) (program : Program) :
    x.Represents t R (Lox.inProgram program y) := fun u s hs =>
  (hx u _ (hs.withProgram program)).inProgram s.program

end Action.Represents

end Rules

/-! ### Operators and names -/

theorem ofExcept_represents {F : Fault → Prop} {r : Except Fault Lox.Value} (h : Returns F r) :
    (ofExcept r).Represents t (Value.Represents t) (Lox.ofExcept r) := by
  cases r with
  | ok v => exact pure_represents (.data h.1)
  | error fault => exact fail_represents fault

variable {x : String}

/-- The text of the name is looked up where it is shown. -/
theorem failNamed_represents {R : β → α → Prop} (fault : String → Fault) (hx : x ∈ t.texts)
    {u : State} {s : Lox.State} (hs : u.Represents t s) :
    (fail (fault (u.names.lookup (t.number x))) u : Step β).Represents t R
      (Lox.fail (fault x) s) := by
  rw [hs.names, NameTable.lookup_number hx]
  exact fail_represents (fault x) u s hs

theorem readName_represents (hx : x ∈ t.texts) :
    (readName (t.number x)).Represents t (Value.Represents t) (Lox.readName x) := by
  intro u s hs
  rw [readName, Lox.readName, hs.env.lookup_eq hx]
  cases hv : s.env.lookup x with
  | none => exact failNamed_represents .undefinedVariable hx hs
  | some v => exact .done ⟨rfl, hs.env.held_lookup hv⟩ hs

theorem defineName_represents (hx : x ∈ t.texts) {w : Value} {v : Lox.Value}
    (hv : w.Represents t v) :
    (defineName (t.number x) w).Represents t Eq (Lox.defineName x v) := by
  obtain ⟨rfl, hv⟩ := hv
  exact fun u s hs => .done rfl (hs.withEnv (hs.env.define hs.distinct hx hv))

theorem assignName_represents (hx : x ∈ t.texts) {w : Value} {v : Lox.Value}
    (hv : w.Represents t v) :
    (assignName (t.number x) w).Represents t Eq (Lox.assignName x v) := by
  obtain ⟨rfl, hv⟩ := hv
  intro u s hs
  rw [assignName, Lox.assignName, hs.env.scope, hs.env.owner?_eq hx]
  cases s.env.owner? s.env.scope x with
  | some i => exact .done rfl (hs.withEnv (hs.env.write hs.distinct i hx hv))
  | none => exact failNamed_represents .undefinedVariable hx hs

theorem printLine_represents (text : String) :
    (printLine text).Represents t Eq (Lox.printLine text) := fun _ _ hs =>
  .done rfl { hs with output := by simp [hs.output] }

/-! ### Functions, classes and objects -/

theorem newId_represents : newId.Represents t Eq Lox.newId := fun _ _ hs =>
  .done hs.nextId { hs with nextId := congrArg (· + 1) hs.nextId }

theorem newFunction_represents (name : Option String) (hname : ∀ x ∈ name, x ∈ t.texts)
    {params : List String} (hparams : ∀ x ∈ params, x ∈ t.texts) {body : List Lox.Stmt}
    (hbody : t.HoldsAll (nodesAll body)) :
    (newFunction (name.map t.number) (params.map t.number) (internedAll t body)).Represents t
      (Value.Represents t) (Lox.newFunction name params body) := by
  refine newId_represents.bind ?_
  rintro _ id rfl u s hs
  refine .done ⟨?_, hparams, hbody⟩ hs
  have htext : (name.map t.number).map u.names.lookup = name := by
    rw [hs.names]
    cases name with
    | none => rfl
    | some x => exact congrArg some (NameTable.lookup_number (hname x rfl))
  rw [htext, hs.env.scope]
  rfl

theorem newClass_represents (hx : x ∈ t.texts) :
    (newClass (t.number x)).Represents t (Value.Represents t) (Lox.newClass x) := by
  refine newId_represents.bind ?_
  rintro _ id rfl u s hs
  refine .done ⟨?_, trivial⟩ hs
  rw [hs.names, NameTable.lookup_number hx]
  rfl

theorem newObject_represents (className : String) :
    (newObject className).Represents t (Value.Represents t) (Lox.newObject className) := by
  intro u s hs
  have hs' : State.Represents t { u with objects := u.objects.push ∅ }
      { s with objects := s.objects.push ∅ } := { hs with objects := hs.objects.push }
  refine .done ⟨?_, trivial⟩ hs'
  rw [hs.objects.size]
  rfl

theorem objectId_represents {w : Value} {v : Lox.Value} (hv : w.Represents t v) :
    (objectId w).Represents t Eq (Lox.objectId v) := by
  obtain ⟨rfl, -⟩ := hv
  cases v with
  | object id name => exact pure_represents rfl
  | _ => exact fail_represents _

theorem readField_represents (id : Nat) (hx : x ∈ t.texts) :
    (readField id (t.number x)).Represents t (Value.Represents t) (Lox.readField id x) := by
  intro u s hs
  have hobject := hs.objects.get id
  rw [readField, Lox.readField, hobject.getElem?_number hx]
  cases hv : (s.objects.getD id ∅).get? x with
  | none => exact failNamed_represents .undefinedProperty hx hs
  | some v => exact .done ⟨rfl, (hobject.held x v hv).2⟩ hs

theorem writeField_represents (id : Nat) (hx : x ∈ t.texts) {w : Value} {v : Lox.Value}
    (hv : w.Represents t v) :
    (writeField id (t.number x) w).Represents t Eq (Lox.writeField id x v) := by
  obtain ⟨rfl, hv⟩ := hv
  exact fun u s hs => .done rfl { hs with objects := hs.objects.insert hs.distinct id hx hv }

/-! ### Calls -/

/-- Values with the numbers of a table, which holds their names and texts. -/
structure ValuesRepresent (t : NameTable) (ws : List Value) (vs : List Lox.Value) : Prop where
  eq : ws = vs.map (Lox.Value.interned t)
  held : ∀ v ∈ vs, v.Held t

theorem requestCall_represents {f : Lox.Function} (hf : f.Held t) {args : List Lox.Value}
    (hargs : ∀ v ∈ args, v.Held t) :
    (requestCall (f.interned t) (args.map (Lox.Value.interned t))).Represents t
      (Value.Represents t) (Lox.requestCall f args) := by
  intro u s hs
  rw [requestCall, Lox.requestCall, hs.depth]
  split
  · exact fail_represents _ u s hs
  · exact .call hf hargs hs fun _ _ _ _ hr hs => .ofReply hr hs

theorem callNative_represents (f : Native) (args : List Lox.Value) :
    (callNative f (args.map (Lox.Value.interned t))).Represents t (Value.Represents t)
      (Lox.callNative f args) := by
  intro u s hs
  have hclock : State.Represents t { u with clock := u.clock.after f.builtin }
      { s with clock := s.clock.after f.builtin } :=
    { hs with clock := congrArg (·.after f.builtin) hs.clock }
  rw [callNative, Lox.callNative, Builtin.apply_face_interned, hs.clock]
  rw [hs.clock] at hclock
  exact ofExcept_represents (f.builtin.returns_apply s.clock.reading args) _ _ hclock

theorem callValue_represents {w : Value} {v : Lox.Value} (hv : w.Represents t v)
    {ws : List Value} {args : List Lox.Value} (hargs : ValuesRepresent t ws args) :
    (callValue w ws).Represents t (Value.Represents t) (Lox.callValue v args) := by
  obtain ⟨rfl, hv⟩ := hv
  obtain ⟨rfl, hargs⟩ := hargs
  unfold callValue Lox.callValue
  rw [Lox.Value.arity?_face_interned, Lox.Value.type_face_interned, List.length_map]
  cases v.arity? with
  | none => exact fail_represents _
  | some arity =>
    by_cases harity : arity ≠ args.length
    · simp only [if_pos harity]
      exact fail_represents _
    · simp only [if_neg harity]
      cases v with
      | function id f => exact requestCall_represents hv hargs
      | native id f => exact callNative_represents f args
      | cls id name => exact newObject_represents name
      | _ => exact fail_represents _

end Lox.Interned
