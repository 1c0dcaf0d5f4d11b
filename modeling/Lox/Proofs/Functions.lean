import Lox.Proofs.Nodes
import Lox.Session

/-!
# The values that a state holds

A state holds values as those of names and of fields. What all of them have in common stays so, if
the values that are added have it too. It may be about the functions and the texts among them.

* `Node.Makes`, `Node.Spells`: a property of the functions that are made at a node, or of the text
  of a literal;
* `Value.Each`, `Value.Spells`: a property of the function or the text that a value may be;
* `Stores`, `Holds`: a property of the values of bindings, or of the functions among them;
* `State.Stores`, `State.Each`: a property of the values that a state holds, or of the functions
  among them, with a lemma for each way to change a state.
-/

namespace Lox

variable {P Q : Function → Prop} {T : String → Prop} {R R' : Value → Prop}

/-- The functions that are made at a node, as code of a program, have a property. -/
def Node.Makes (P : Function → Prop) (program : Program) : Node → Prop
  | .expr (.lambda _ params body) => ∀ scope, P ⟨none, params, body, scope, program⟩
  | .stmt (.funDecl _ x params body) => ∀ scope, P ⟨some x, params, body, scope, program⟩
  | _ => True

theorem Node.makes_of_forall (h : ∀ f, P f) (n : Node) (p : Program) : n.Makes P p := by
  unfold Makes
  split
  · exact fun _ => h _
  · exact fun _ => h _
  · trivial

/-- A value that is no function, or one with a property. -/
def Value.Each (P : Function → Prop) : Value → Prop
  | function _ f => P f
  | _ => True

theorem Value.Each.mono {v : Value} (h : v.Each P) (hPQ : ∀ f, P f → Q f) : v.Each Q := by
  cases v with
  | function _ f => exact hPQ f h
  | _ => trivial

/-- The text of a literal at a node has a property. -/
def Node.Spells (T : String → Prop) : Node → Prop
  | .expr (.literal _ (.str text)) => T text
  | _ => True

theorem Node.spells_of_forall (h : ∀ text, T text) (n : Node) : n.Spells T := by
  unfold Spells
  split
  · exact h _
  · trivial

/-- A value that is no text, or one with a property. -/
def Value.Spells (T : String → Prop) : Value → Prop
  | str text => T text
  | _ => True

theorem Value.Spells.mono {T' : String → Prop} {v : Value} (h : v.Spells T)
    (hT : ∀ text, T text → T' text) : v.Spells T' := by
  cases v with
  | str text => exact hT text h
  | _ => trivial

theorem Value.spells_of_forall (h : ∀ text, T text) (v : Value) : v.Spells T := by
  cases v with
  | str text => exact h text
  | _ => trivial

/-! ### Frames and fields -/

/-- What is kept at a number, after something there or somewhere else was changed. -/
theorem getD_modify {α : Type} (as : Array α) (f : α → α) (i j : Nat) (d : α) :
    (as.modify i f).getD j d = if i = j ∧ j < as.size then f (as.getD j d) else as.getD j d := by
  rw [Array.getD_eq_getD_getElem?, Array.getD_eq_getD_getElem?, Array.getElem?_modify]
  by_cases hij : i = j
  · by_cases hj : j < as.size
    · rw [if_pos hij, if_pos ⟨hij, hj⟩, Array.getElem?_eq_getElem hj]
      rfl
    · rw [if_pos hij, if_neg fun h => hj h.2, Array.getElem?_eq_none (Nat.not_lt.1 hj)]
      rfl
  · rw [if_neg hij, if_neg fun h => hij h.1]

/-- What is kept when nothing is added is nothing. -/
theorem getD_push_self {α : Type} (as : Array α) (j : Nat) (d : α) :
    (as.push d).getD j d = as.getD j d := by
  rw [Array.getD_eq_getD_getElem?, Array.getD_eq_getD_getElem?, Array.getElem?_push]
  by_cases hj : j = as.size
  · rw [if_pos hj, hj, Array.getElem?_eq_none (Nat.le_refl _)]
    rfl
  · rw [if_neg hj]

namespace Bindings

variable {α : Type}

/-- A value that a name has is the one that was given last, or one that was there before. -/
theorem eq_or_get?_of_insert {b : Bindings α} {name x : String} {value v : α}
    (h : (b.insert name value).get? x = some v) : v = value ∨ b.get? x = some v := by
  rw [get?_insert] at h
  split at h
  · exact .inl (Option.some.inj h).symm
  · exact .inr h

/-- Bindings at a number, after a name got a value there or somewhere else. -/
theorem getD_modify_insert (bs : Array (Bindings α)) (i j : Nat) (name : String) (value : α) :
    (bs.modify i (·.insert name value)).getD j ∅ =
      if i = j ∧ j < bs.size then (bs.getD j ∅).insert name value else bs.getD j ∅ :=
  getD_modify bs _ i j ∅

/-- Where there are no bindings there are none of any name. -/
theorem getD_push_empty (bs : Array (Bindings α)) (j : Nat) :
    (bs.push ∅).getD j ∅ = bs.getD j ∅ :=
  getD_push_self bs j ∅

/-- A value is the one that was given last to a name somewhere, or one that was there before. -/
theorem get?_getD_modify {bs : Array (Bindings α)} {i j : Nat} {name x : String} {value v : α}
    (h : ((bs.modify i (·.insert name value)).getD j ∅).get? x = some v) :
    v = value ∨ (bs.getD j ∅).get? x = some v := by
  rw [getD_modify_insert] at h
  split at h
  · exact eq_or_get?_of_insert h
  · exact .inr h

end Bindings

/-- The values that several bindings give to names are of a sort. -/
def Stores (R : Value → Prop) (bs : Array (Bindings Value)) : Prop :=
  ∀ (i : Nat) (name : String) (v : Value), (bs.getD i ∅).get? name = some v → R v

/-- The functions that several bindings give to names have a property. -/
def Holds (P : Function → Prop) (bs : Array (Bindings Value)) : Prop :=
  ∀ (i : Nat) (name : String) (v : Value), (bs.getD i ∅).get? name = some v → v.Each P

namespace Stores

variable {bs : Array (Bindings Value)}

theorem insert (h : Stores R bs) (i : Nat) (name : String) {value : Value} (hvalue : R value) :
    Stores R (bs.modify i (·.insert name value)) := by
  intro j x v hv
  rcases Bindings.get?_getD_modify hv with rfl | hold
  · exact hvalue
  · exact h j x v hold

/-- Bindings of no names store nothing. -/
theorem push (h : Stores R bs) : Stores R (bs.push ∅) := by
  intro i x v hv
  rw [Bindings.getD_push_empty] at hv
  exact h i x v hv

theorem mono (h : Stores R bs) (hR : ∀ v, R v → R' v) : Stores R' bs :=
  fun i name v hv => hR v (h i name v hv)

end Stores

namespace Holds

variable {bs : Array (Bindings Value)}

theorem insert (h : Holds P bs) (i : Nat) (name : String) {value : Value} (hvalue : value.Each P) :
    Holds P (bs.modify i (·.insert name value)) :=
  Stores.insert h i name hvalue

theorem push (h : Holds P bs) : Holds P (bs.push ∅) := Stores.push h

theorem mono (h : Holds P bs) (hPQ : ∀ f, P f → Q f) : Holds Q bs :=
  Stores.mono h fun _ hv => hv.mono hPQ

end Holds

namespace Environment

variable {env : Environment}

theorem stores_define (h : Stores R env.frames) (name : String) {value : Value}
    (hvalue : R value) : Stores R (env.define name value).frames := by
  rw [define]
  split
  · exact h
  · exact h.insert _ name hvalue

theorem stores_lookup (h : Stores R env.frames) {name : String} {v : Value}
    (hv : env.lookup name = some v) : R v := by
  obtain ⟨i, -, hi⟩ := List.exists_of_findSome?_eq_some hv
  exact h i name v hi

theorem holds_define (h : Holds P env.frames) (name : String) {value : Value}
    (hvalue : value.Each P) : Holds P (env.define name value).frames :=
  stores_define h name hvalue

theorem each_lookup (h : Holds P env.frames) {name : String} {v : Value}
    (hv : env.lookup name = some v) : v.Each P :=
  stores_lookup h hv

end Environment

/-- A function is entered with its parameters in a new frame. -/
theorem Function.stores_enter (f : Function) {args : List Value} (hargs : ∀ v ∈ args, R v)
    {env : Environment} (h : Stores R env.frames) : Stores R (f.enter args env).frames := by
  -- later parameters are defined in the environment that earlier ones have left
  have define_all : ∀ (pairs : List (String × Value)) (env : Environment),
      (∀ e ∈ pairs, R e.2) → Stores R env.frames →
      Stores R (pairs.foldl (fun env e => env.define e.1 e.2) env).frames := by
    intro pairs
    induction pairs with
    | nil => exact fun _ _ h => h
    | cons e pairs ih =>
      intro env hpairs h
      exact ih _ (fun e he => hpairs e (.tail _ he))
        (Environment.stores_define h e.1 (hpairs e (.head _)))
  refine define_all _ _ (fun e he => hargs e.2 (List.of_mem_zip he).2) ?_
  exact h.push

theorem Function.holds_enter (f : Function) {args : List Value} (hargs : ∀ v ∈ args, v.Each P)
    {env : Environment} (h : Holds P env.frames) : Holds P (f.enter args env).frames :=
  f.stores_enter hargs h

/-! ### States -/

/-- The values that a state holds are of a sort. -/
structure State.Stores (R : Value → Prop) (s : State) : Prop where
  frames : Lox.Stores R s.env.frames
  objects : Lox.Stores R s.objects

/-- The functions that a state holds have a property. -/
structure State.Each (P : Function → Prop) (s : State) : Prop where
  frames : Holds P s.env.frames
  objects : Holds P s.objects

theorem State.Stores.mono {s : State} (h : s.Stores R) (hR : ∀ v, R v → R' v) : s.Stores R' :=
  ⟨h.frames.mono hR, h.objects.mono hR⟩

theorem State.Each.mono {s : State} (h : s.Each P) (hPQ : ∀ f, P f → Q f) : s.Each Q :=
  ⟨h.frames.mono hPQ, h.objects.mono hPQ⟩

/-- At the start, there are the built-in functions. -/
theorem State.stores_start (h : ∀ id f, R (.native id f)) (clock : Clock) :
    (State.start clock).Stores R := by
  have add : ∀ (s : State) (f : Native), s.Stores R → (s.addNative f).Stores R := fun s f hs =>
    ⟨hs.frames.insert _ f.name (h _ _), hs.objects⟩
  have empty : (State.empty clock).Stores R := by
    constructor
    · intro i x v hv
      rcases i with _ | _ | i <;> cases hv
    · intro i x v hv
      cases hv
  exact add _ _ (add _ _ empty)

/-- The built-in functions are not written in a program. -/
theorem State.each_start (clock : Clock) : (State.start clock).Each P :=
  have h : (State.start clock).Stores (Value.Each P) := stores_start (fun _ _ => trivial) clock
  ⟨h.frames, h.objects⟩

end Lox
