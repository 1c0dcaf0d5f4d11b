import Lox.Proofs.Operators

/-!
# What can be reached

A function refers to the frames in which it looks up names, an object to its fields, and the values
there refer to others. What can be reached from some values is what they refer to, and what is
referred to from there. Two states may agree on that, and not elsewhere.

* `Ref`, `Value.refs`, `State.Reach`: references, and what can be reached from values;
* `Store.Closed`, `Store.AgreeOn`, `Store.Spares`: frames, or the fields of objects, of which some
  are seen;
* `State.Closed`, `State.AgreeOn`, `State.Spares`: the same for states;
* `State.Sees`, `State.closed_sees`: what is seen from some references on is closed.
-/

namespace Lox

/-- A frame or an object, by its number. -/
inductive Ref
  | frame (i : Nat)
  | object (i : Nat)
  deriving DecidableEq, Repr

/-- The frames around a function, or the object that a value is. -/
def Value.refs : Value → List Ref
  | function _ f => f.scope.map .frame
  | object id _ => [.object id]
  | _ => []

/-- What can be reached from some values, through the values of names and fields. -/
inductive State.Reach (s : State) (vs : List Value) : Ref → Prop
  | root {v : Value} {ref : Ref} (hv : v ∈ vs) (h : ref ∈ v.refs) : Reach s vs ref
  | frame {i : Nat} {x : String} {v : Value} {ref : Ref} (hi : Reach s vs (.frame i))
    (hv : (s.env.frame i).get? x = some v) (h : ref ∈ v.refs) : Reach s vs ref
  | object {i : Nat} {x : String} {v : Value} {ref : Ref} (hi : Reach s vs (.object i))
    (hv : (s.objects.getD i ∅).get? x = some v) (h : ref ∈ v.refs) : Reach s vs ref

/-- A value that refers to what is seen only. -/
def Value.Seen (V : Ref → Prop) (v : Value) : Prop := ∀ ref ∈ v.refs, V ref

theorem Value.Plain.seen {V : Ref → Prop} {v : Value} (h : v.Plain) : v.Seen V := by
  cases v with
  | function | object => cases h
  | _ => exact nofun

theorem Value.seen_function {V : Ref → Prop} {id : Nat} {f : Function} :
    (Value.function id f).Seen V ↔ ∀ i ∈ f.scope, V (.frame i) := by
  simp [Seen, refs]

theorem Value.seen_object {V : Ref → Prop} {id : Nat} {className : String} :
    (Value.object id className).Seen V ↔ V (.object id) := by
  simp [Seen, refs]

/-! ### Stores -/

/-- The bindings of frames, or those of objects, by number. -/
abbrev Store := Array (Bindings Value)

namespace Store

variable {U : Value → Prop} {V : Nat → Prop} {bs cs ds : Store}

/-- What is not made yet has no bindings. -/
theorem getD_eq_empty {i : Nat} (h : bs.size ≤ i) : bs.getD i ∅ = ∅ := by
  rw [Array.getD_eq_getD_getElem?, Array.getElem?_eq_none h]
  rfl

/-- Where bindings are seen, their values are of a sort. Those still to be made are seen. -/
structure Closed (U : Value → Prop) (V : Nat → Prop) (bs : Store) : Prop where
  values : ∀ i, V i → ∀ x v, (bs.getD i ∅).get? x = some v → U v
  new : ∀ i, bs.size ≤ i → V i

/-- Where bindings are seen, they are the same. -/
structure AgreeOn (V : Nat → Prop) (bs cs : Store) : Prop where
  size : cs.size = bs.size
  bindings : ∀ i, V i → cs.getD i ∅ = bs.getD i ∅

/-- Where bindings are not seen, they stay the same. -/
def Spares (V : Nat → Prop) (bs cs : Store) : Prop := ∀ i, ¬ V i → cs.getD i ∅ = bs.getD i ∅

theorem Closed.insert (h : Closed U V bs) (i : Nat) (name : String) {value : Value}
    (hvalue : U value) : Closed U V (bs.modify i (·.insert name value)) where
  values j hj x v hv := by
    rcases Bindings.get?_getD_modify hv with rfl | hold
    · exact hvalue
    · exact h.values j hj x v hold
  new j hj := h.new j (by simpa using hj)

theorem Closed.push (h : Closed U V bs) : Closed U V (bs.push ∅) where
  values j hj x v hv := h.values j hj x v (by rwa [Bindings.getD_push_empty] at hv)
  new j hj := h.new j (by simp at hj; omega)

theorem AgreeOn.insert (h : AgreeOn V bs cs) (i : Nat) (name : String) (value : Value) :
    AgreeOn V (bs.modify i (·.insert name value)) (cs.modify i (·.insert name value)) where
  size := by simpa using h.size
  bindings j hj := by
    rw [Bindings.getD_modify_insert, Bindings.getD_modify_insert, h.size, h.bindings j hj]

theorem AgreeOn.push (h : AgreeOn V bs cs) : AgreeOn V (bs.push ∅) (cs.push ∅) where
  size := by simp [h.size]
  bindings j hj := by
    rw [Bindings.getD_push_empty, Bindings.getD_push_empty, h.bindings j hj]

theorem Spares.refl : Spares V bs bs := fun _ _ => rfl

theorem Spares.trans (h : Spares V bs cs) (h' : Spares V cs ds) : Spares V bs ds :=
  fun i hi => (h' i hi).trans (h i hi)

theorem Spares.insert {i : Nat} (hi : V i) (name : String) (value : Value) :
    Spares V bs (bs.modify i (·.insert name value)) := by
  intro j hj
  rw [Bindings.getD_modify_insert, if_neg]
  rintro ⟨rfl, -⟩
  exact hj hi

theorem Spares.push : Spares V bs (bs.push ∅) := fun j _ => Bindings.getD_push_empty bs j

end Store

/-! ### States -/

namespace State

variable {V : Ref → Prop} {s t u : State}

/-- The values of seen names and fields refer to what is seen only. -/
structure Closed (V : Ref → Prop) (s : State) : Prop where
  frames : Store.Closed (Value.Seen V) (fun i => V (.frame i)) s.env.frames
  objects : Store.Closed (Value.Seen V) (fun i => V (.object i)) s.objects

/-- Two states that differ in what is not seen only, and maybe in their scopes and programs. -/
structure AgreeOn (V : Ref → Prop) (s t : State) : Prop where
  frames : Store.AgreeOn (fun i => V (.frame i)) s.env.frames t.env.frames
  objects : Store.AgreeOn (fun i => V (.object i)) s.objects t.objects
  nextId : t.nextId = s.nextId
  depth : t.depth = s.depth
  output : t.output = s.output
  clock : t.clock = s.clock

/-- What is not seen stays as it is. -/
structure Spares (V : Ref → Prop) (s t : State) : Prop where
  frames : Store.Spares (fun i => V (.frame i)) s.env.frames t.env.frames
  objects : Store.Spares (fun i => V (.object i)) s.objects t.objects

theorem Spares.refl : s.Spares V s := ⟨.refl, .refl⟩

theorem Spares.trans (h : s.Spares V t) (h' : t.Spares V u) : s.Spares V u :=
  ⟨h.frames.trans h'.frames, h.objects.trans h'.objects⟩

/-- What code sees that is given some values: what can be reached from them, and what is still to be
made. -/
def Sees (s : State) (vs : List Value) : Ref → Prop
  | .frame i => s.Reach vs (.frame i) ∨ s.env.frames.size ≤ i
  | .object i => s.Reach vs (.object i) ∨ s.objects.size ≤ i

variable {vs : List Value}

theorem Reach.sees {ref : Ref} (h : s.Reach vs ref) : s.Sees vs ref := by
  cases ref with
  | frame i => exact .inl h
  | object i => exact .inl h

theorem closed_sees (s : State) (vs : List Value) : s.Closed (s.Sees vs) where
  frames := by
    refine ⟨fun i hi x v hv ref href => ?_, fun i hi => .inr hi⟩
    rcases hi with hi | hi
    · exact (Reach.frame hi hv href).sees
    · rw [Store.getD_eq_empty hi] at hv
      cases hv
  objects := by
    refine ⟨fun i hi x v hv ref href => ?_, fun i hi => .inr hi⟩
    rcases hi with hi | hi
    · exact (Reach.object hi hv href).sees
    · rw [Store.getD_eq_empty hi] at hv
      cases hv

/-- What can be reached is seen, wherever the values are that it is reached from. -/
theorem Closed.of_reach (hs : s.Closed V) (hvs : ∀ v ∈ vs, v.Seen V) {ref : Ref}
    (h : s.Reach vs ref) : V ref := by
  induction h with
  | root hv href => exact hvs _ hv _ href
  | frame _ hv href ih => exact hs.frames.values _ ih _ _ hv _ href
  | object _ hv href ih => exact hs.objects.values _ ih _ _ hv _ href

theorem seen_of_mem {v : Value} (hv : v ∈ vs) : v.Seen (s.Sees vs) :=
  fun _ h => (Reach.root hv h).sees

theorem AgreeOn.mono {V' : Ref → Prop} (h : s.AgreeOn V t) (hV : ∀ ref, V' ref → V ref) :
    s.AgreeOn V' t :=
  { h with
    frames := ⟨h.frames.size, fun i hi => h.frames.bindings i (hV _ hi)⟩
    objects := ⟨h.objects.size, fun i hi => h.objects.bindings i (hV _ hi)⟩ }

theorem AgreeOn.refl : s.AgreeOn V s :=
  ⟨⟨rfl, fun _ _ => rfl⟩, ⟨rfl, fun _ _ => rfl⟩, rfl, rfl, rfl, rfl⟩

/-- What is neither reached nor still to be made is not seen. -/
theorem Spares.frame_eq (h : s.Spares (s.Sees vs) t) {i : Nat} (hi : i < s.env.frames.size)
    (hreach : ¬ s.Reach vs (.frame i)) : t.env.frame i = s.env.frame i :=
  h.frames i fun hsees => hsees.elim hreach (Nat.not_le.2 hi)

theorem Spares.object_eq (h : s.Spares (s.Sees vs) t) {i : Nat} (hi : i < s.objects.size)
    (hreach : ¬ s.Reach vs (.object i)) : t.objects.getD i ∅ = s.objects.getD i ∅ :=
  h.objects i fun hsees => hsees.elim hreach (Nat.not_le.2 hi)

/-- States that agree on what can be reached agree on what is still to be made too. -/
theorem AgreeOn.sees (h : s.AgreeOn (s.Reach vs) t) : s.AgreeOn (s.Sees vs) t := by
  refine { h with
    frames := ⟨h.frames.size, fun i hi => ?_⟩
    objects := ⟨h.objects.size, fun i hi => ?_⟩ }
  · rcases hi with hi | hi
    · exact h.frames.bindings i hi
    · rw [Store.getD_eq_empty hi, Store.getD_eq_empty (h.frames.size ▸ hi)]
  · rcases hi with hi | hi
    · exact h.objects.bindings i hi
    · rw [Store.getD_eq_empty hi, Store.getD_eq_empty (h.objects.size ▸ hi)]

end State

namespace Environment

variable {env env' : Environment}

theorem lookupIn_congr {scope : Scope} (h : ∀ i ∈ scope, env'.frame i = env.frame i)
    (x : String) : env'.lookupIn scope x = env.lookupIn scope x := by
  induction scope with
  | nil => rfl
  | cons i rest ih =>
    obtain ⟨hi, hrest⟩ := List.forall_mem_cons.1 h
    rw [lookupIn, lookupIn, List.findSome?_cons, List.findSome?_cons, hi]
    cases (env.frame i).get? x with
    | some v => rfl
    | none => exact ih hrest

theorem owner?_congr {scope : Scope} (h : ∀ i ∈ scope, env'.frame i = env.frame i)
    (x : String) : env'.owner? scope x = env.owner? scope x := by
  induction scope with
  | nil => rfl
  | cons i rest ih =>
    obtain ⟨hi, hrest⟩ := List.forall_mem_cons.1 h
    rw [owner?, owner?, List.find?_cons, List.find?_cons, hi]
    cases ((env.frame i).get? x).isSome with
    | true => rfl
    | false => exact ih hrest

end Environment

end Lox
