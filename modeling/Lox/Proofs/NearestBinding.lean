import Lox.Environment
import Lox.Proofs.Functions

/-!
# The nearest binding

Whatever is done to an environment, a name has the value that was written to it last in the nearest
frame that has the name. Of the frames a record is kept that knows no paths and no bindings: only
around which frame each frame was made, which one is current, and what was written.

* `Operation`, `Handled`: what may be done to an environment whose frames can be entered again;
* `Ledger`: the record, with `Ledger.path`, `Ledger.value?`, `Ledger.owner?` and `Ledger.read`;
* `Handled.Follows`: an environment as the record says, and `follows_apply`, `follows_run`;
* `Environment.lookupIn_write`: what a write changes for any path;
* `nearest_binding`.
-/

namespace Lox

/-! ### Operations -/

/-- What may be done to an environment. To enter a frame again is also how a frame is restored that
was current before. -/
inductive Operation
  | define (name : String) (value : Value)
  | defineGlobal (name : String) (value : Value)
  | assign (name : String) (value : Value)
  | push
  | enter (frame : Nat)
  | enterChild (frame : Nat)

/-- An environment, and the paths from all of its frames by number. -/
structure Handled where
  env : Environment
  paths : List Scope

namespace Handled

def fresh : Handled := ⟨.fresh, [[globalFrame], [1, globalFrame]]⟩

/-- What an operation does. An assignment that fails does nothing, and no frame is entered that
there is not. -/
def apply (h : Handled) : Operation → Handled
  | .define name value => { h with env := h.env.define name value }
  | .defineGlobal name value => { h with env := h.env.defineGlobal name value }
  | .assign name value => { h with env := (h.env.assign name value).getD h.env }
  | .push => ⟨h.env.push, h.paths ++ [h.env.push.scope]⟩
  | .enter i =>
    match h.paths[i]? with
    | some path => { h with env := h.env.enter path }
    | none => h
  | .enterChild i =>
    match h.paths[i]? with
    | some path => ⟨h.env.pushOn path, h.paths ++ [(h.env.pushOn path).scope]⟩
    | none => h

/-- A fresh environment after operations. -/
def run (ops : List Operation) : Handled := ops.foldl apply fresh

end Handled

/-! ### Records -/

/-- A value that was written to a name in a frame. -/
structure Ledger.Entry where
  frame : Nat
  name : String
  value : Value

/-- A record of operations: the frame around each frame by number, the current frame, and what was
written, last first. -/
structure Ledger where
  parents : List (Option Nat)
  current : Nat
  writings : List Ledger.Entry

/-- A frame, the frame around it, and so on, where the frames around frames are given. -/
def outward (parents : List (Option Nat)) (i : Nat) : List Nat :=
  match parents[i]? with
  | some (some j) => if _h : j < i then i :: outward parents j else [i]
  | _ => [i]
termination_by i

theorem outward_eq (parents : List (Option Nat)) (i : Nat) :
    outward parents i = [i] ∨ ∃ j < i, outward parents i = i :: outward parents j := by
  rw [outward]
  split
  · next j _ =>
    split
    · next hlt => exact .inr ⟨j, hlt, rfl⟩
    · exact .inl rfl
  · exact .inl rfl

theorem le_of_mem_outward {parents : List (Option Nat)} {i k : Nat} (h : k ∈ outward parents i) :
    k ≤ i := by
  induction i using Nat.strongRecOn with
  | ind i ih =>
    rcases outward_eq parents i with heq | ⟨j, hlt, heq⟩
    · rw [heq, List.mem_singleton] at h
      omega
    · rw [heq] at h
      rcases List.mem_cons.1 h with rfl | h
      · exact Nat.le_refl _
      · have := ih j hlt h
        omega

/-- A further frame does not matter to the frames before. -/
theorem outward_append (parents : List (Option Nat)) (parent : Option Nat) {i : Nat}
    (hi : i < parents.length) : outward (parents ++ [parent]) i = outward parents i := by
  induction i using Nat.strongRecOn with
  | ind i ih =>
    rw [outward, outward, List.getElem?_append_left hi]
    split
    · next j _ =>
      split
      · next hlt => rw [ih j hlt (by omega)]
      · rfl
    · rfl

namespace Ledger

def fresh : Ledger := ⟨[none, some globalFrame], 1, []⟩

/-- The value that was written last to a name in a frame. -/
def value? (l : Ledger) (i : Nat) (name : String) : Option Value :=
  l.writings.findSome? fun w => if w.frame = i ∧ w.name = name then some w.value else none

/-- The path from a frame to the global frame. -/
def path (l : Ledger) (i : Nat) : Scope := outward l.parents i

/-- The nearest frame from `i` outwards in which something was written to a name. -/
def owner? (l : Ledger) (i : Nat) (name : String) : Option Nat :=
  (l.path i).find? fun j => (l.value? j name).isSome

/-- The value that was written last to a name in the nearest frame from `i` outwards that has it. -/
def read (l : Ledger) (i : Nat) (name : String) : Option Value :=
  (l.path i).findSome? fun j => l.value? j name

/-- Records a write. -/
def write (l : Ledger) (i : Nat) (name : String) (value : Value) : Ledger :=
  { l with writings := ⟨i, name, value⟩ :: l.writings }

/-- Records a new frame, which is current from then on. -/
def inside (l : Ledger) (i : Nat) : Ledger :=
  { l with parents := l.parents ++ [some i], current := l.parents.length }

/-- Records an operation. -/
def apply (l : Ledger) : Operation → Ledger
  | .define name value => l.write l.current name value
  | .defineGlobal name value => l.write globalFrame name value
  | .assign name value =>
    match l.owner? l.current name with
    | some i => l.write i name value
    | none => l
  | .push => l.inside l.current
  | .enter i => if i < l.parents.length then { l with current := i } else l
  | .enterChild i => if i < l.parents.length then l.inside i else l

/-- The record of operations on a fresh environment. -/
def run (ops : List Operation) : Ledger := ops.foldl apply fresh

/-- Every frame but the global one was made inside an older one. -/
structure Founded (l : Ledger) : Prop where
  older : ∀ i j : Nat, l.parents[i]? = some (some j) → j < i
  global : ∀ i, l.parents[i]? = some none ↔ i = globalFrame
  current : l.current < l.parents.length

variable {l : Ledger} {i j : Nat} {name x : String} {value : Value}

theorem value?_write : (l.write i name value).value? j x =
    if j = i ∧ x = name then some value else l.value? j x := by
  rw [value?, write, List.findSome?_cons]
  by_cases h : j = i ∧ x = name
  · obtain ⟨rfl, rfl⟩ := h
    simp
  · have h' : ¬ (i = j ∧ name = x) := fun h' => h ⟨h'.1.symm, h'.2.symm⟩
    rw [if_neg h, if_neg h']
    rfl

theorem getElem?_parents_inside (l : Ledger) (i k : Nat) :
    (l.inside i).parents[k]? =
      if k = l.parents.length then some (some i) else l.parents[k]? := by
  rw [inside]
  rcases Nat.lt_trichotomy k l.parents.length with hlt | rfl | hgt
  · rw [List.getElem?_append_left hlt, if_neg (Nat.ne_of_lt hlt)]
  · simp
  · rw [if_neg (Nat.ne_of_gt hgt), List.getElem?_eq_none (by simpa using Nat.succ_le_of_lt hgt),
      List.getElem?_eq_none (Nat.le_of_lt hgt)]

theorem length_parents_inside (l : Ledger) (i : Nat) :
    (l.inside i).parents.length = l.parents.length + 1 := by
  simp [inside]

/-- A new frame is around no other frame. -/
theorem path_inside_of_lt {k : Nat} (hk : k < l.parents.length) :
    (l.inside i).path k = l.path k :=
  outward_append _ _ hk

theorem path_inside_length (hi : i < l.parents.length) :
    (l.inside i).path l.parents.length = l.parents.length :: l.path i := by
  rw [path, outward, getElem?_parents_inside, if_pos rfl]
  simp only [dif_pos hi]
  exact congrArg _ (outward_append _ _ hi)

namespace Founded

theorem path_global (h : l.Founded) : l.path globalFrame = [globalFrame] := by
  rw [path, outward, (h.global globalFrame).2 rfl]

theorem path_inside (h : l.Founded) (hi : l.parents[i]? = some (some j)) :
    l.path i = i :: l.path j := by
  rw [path, outward, hi]
  exact dif_pos (h.older i j hi)

/-- What holds of the path from the global frame, and of a path inside another one, holds of all
paths. -/
theorem induct (h : l.Founded) {P : Nat → List Nat → Prop} (global : P globalFrame [globalFrame])
    (inside : ∀ i j, j < i → P j (l.path j) → P i (i :: l.path j))
    (hi : i < l.parents.length) : P i (l.path i) := by
  induction i using Nat.strongRecOn with
  | ind i ih =>
    cases hp : l.parents[i] with
    | none =>
      obtain rfl := (h.global i).1 (by rw [List.getElem?_eq_getElem hi, hp])
      rw [h.path_global]
      exact global
    | some j =>
      have hj : l.parents[i]? = some (some j) := by rw [List.getElem?_eq_getElem hi, hp]
      have hlt := h.older i j hj
      rw [h.path_inside hj]
      exact inside i j hlt (ih j hlt (Nat.lt_trans hlt hi))

/-- A path leads to older frames only, so that it does not come back, and to the global frame. -/
theorem descends (h : l.Founded) (hi : i < l.parents.length) :
    (l.path i).head? = some i ∧ (l.path i).Pairwise (· > ·) ∧
      (l.path i).getLast? = some globalFrame := by
  refine h.induct (P := fun i path => path.head? = some i ∧ path.Pairwise (· > ·) ∧
    path.getLast? = some globalFrame) ⟨rfl, List.pairwise_singleton _ _, rfl⟩ ?_ hi
  rintro i j hlt ⟨hhead, hpairwise, hlast⟩
  obtain ⟨rest, hrest⟩ := List.head?_eq_some_iff.1 hhead
  rw [hrest] at hpairwise hlast ⊢
  refine ⟨rfl, List.pairwise_cons.2 ⟨fun k hk => ?_, hpairwise⟩, by rwa [List.getLast?_cons_cons]⟩
  rcases List.mem_cons.1 hk with rfl | hk
  · exact hlt
  · exact Nat.lt_trans (List.rel_of_pairwise_cons hpairwise hk) hlt

end Founded

end Ledger

/-! ### Environments -/

namespace Environment

variable {env : Environment} {i : Nat} {name : String} {value : Value}

theorem get?_frame_write (hi : i < env.frames.size) (j : Nat) (x : String) :
    ((env.write i name value).frame j).get? x =
      if j = i ∧ x = name then some value else (env.frame j).get? x := by
  rw [frame, write, Bindings.getD_modify_insert]
  by_cases hj : i = j
  · subst hj
    rw [if_pos ⟨rfl, hi⟩, Bindings.get?_insert]
    simp [frame]
  · rw [if_neg fun h => hj h.1, if_neg fun h => hj h.1.symm]
    rfl

/-- A binding is written that there was before, and nothing else. -/
structure Overwrites (env env' : Environment) (i : Nat) (name : String) (value : Value) :
    Prop where
  bound : ((env.frame i).get? name).isSome
  scope : env'.scope = env.scope
  size : env'.frames.size = env.frames.size
  frames : ∀ j x, (env'.frame j).get? x =
    if j = i ∧ x = name then some value else (env.frame j).get? x

theorem lookupIn_cons (env : Environment) (j : Nat) (rest : Scope) (x : String) :
    env.lookupIn (j :: rest) x = ((env.frame j).get? x).or (env.lookupIn rest x) := by
  rw [lookupIn, List.findSome?_cons]
  cases (env.frame j).get? x <;> rfl

theorem owner?_cons (env : Environment) (j : Nat) (rest : Scope) (x : String) :
    env.owner? (j :: rest) x =
      if ((env.frame j).get? x).isSome then some j else env.owner? rest x := by
  rw [owner?, List.find?_cons]
  cases ((env.frame j).get? x).isSome <;> rfl

/-- The new value is found along the paths whose nearest binding it is. -/
theorem Overwrites.lookupIn_eq {env' : Environment} (h : env.Overwrites env' i name value)
    (path : Scope) (x : String) : env'.lookupIn path x =
      if x = name ∧ env.owner? path name = some i then some value else env.lookupIn path x := by
  induction path with
  | nil => simp [lookupIn, owner?]
  | cons j rest ih =>
    have hbound := h.bound
    rw [lookupIn_cons, lookupIn_cons, owner?_cons, h.frames, ih]
    by_cases hx : x = name
    · subst hx
      by_cases hj : j = i
      · subst hj
        simp [hbound]
      · -- another frame is passed, or it is nearer
        cases hget : (env.frame j).get? x with
        | none => simp [hj]
        | some v => simp [hj]
    · simp [hx]

end Environment

/-! ### Environments and records -/

/-- An environment is as a record says. -/
structure Handled.Follows (h : Handled) (l : Ledger) : Prop where
  founded : l.Founded
  size : h.env.frames.size = l.parents.length
  paths : h.paths = (List.range l.parents.length).map l.path
  scope : h.env.scope = l.path l.current
  values : ∀ i x, (h.env.frame i).get? x = l.value? i x

namespace Ledger.Founded

variable {l : Ledger} {i : Nat}

theorem fresh : Ledger.fresh.Founded where
  older i j h := by
    match i with
    | 0 => cases h
    | 1 =>
      cases h
      exact Nat.one_pos
    | i + 2 => cases h
  global i := by
    match i with
    | 0 => exact ⟨fun _ => rfl, fun _ => rfl⟩
    | 1 => exact ⟨nofun, nofun⟩
    | i + 2 => exact ⟨nofun, nofun⟩
  current := by decide

theorem inside (h : l.Founded) (hi : i < l.parents.length) : (l.inside i).Founded where
  older k j hk := by
    rw [Ledger.getElem?_parents_inside] at hk
    split at hk
    · next hnew =>
      cases hk
      exact hnew ▸ hi
    · exact h.older k j hk
  global k := by
    rw [Ledger.getElem?_parents_inside]
    split
    · next hnew =>
      refine ⟨nofun, fun hk => ?_⟩
      have hpos := (List.getElem?_eq_some_iff.1 ((h.global k).2 hk)).1
      omega
    · exact h.global k
  current := by simp [Ledger.inside]

end Ledger.Founded

namespace Handled.Follows

variable {h : Handled} {l : Ledger} {i : Nat} {name : String} {value : Value}

theorem fresh : Handled.fresh.Follows .fresh where
  founded := .fresh
  size := rfl
  paths := by
    simp [Handled.fresh, Ledger.fresh, Ledger.path, outward, List.range_succ, globalFrame]
  scope := by
    simp [Handled.fresh, Ledger.fresh, Ledger.path, outward, Environment.fresh, globalFrame]
  values i x := by
    match i with
    | 0 => rfl
    | 1 => rfl
    | i + 2 => rfl

theorem write (hl : h.Follows l) (hi : i < l.parents.length) :
    Follows { h with env := h.env.write i name value } (l.write i name value) where
  founded := ⟨hl.founded.older, hl.founded.global, hl.founded.current⟩
  size := by simpa [Environment.write, Ledger.write] using hl.size
  paths := hl.paths
  scope := hl.scope
  values j x := by
    rw [Environment.get?_frame_write (hl.size ▸ hi), Ledger.value?_write, hl.values]

theorem getElem?_paths (hl : h.Follows l) (i : Nat) :
    h.paths[i]? = if i < l.parents.length then some (l.path i) else none := by
  rw [hl.paths, List.getElem?_map]
  split
  · next hi => rw [List.getElem?_range hi, Option.map_some]
  · next hi => rw [List.getElem?_eq_none (by simpa using hi), Option.map_none]

theorem pushOn (hl : h.Follows l) (hi : i < l.parents.length) :
    Follows ⟨h.env.pushOn (l.path i), h.paths ++ [(h.env.pushOn (l.path i)).scope]⟩
      (l.inside i) where
  founded := hl.founded.inside hi
  size := by simp [Environment.pushOn, Ledger.inside, hl.size]
  paths := by
    show h.paths ++ [h.env.frames.size :: l.path i] = _
    rw [hl.paths, hl.size, ← Ledger.path_inside_length hi, Ledger.length_parents_inside,
      List.range_succ, List.map_append, List.map_singleton]
    congr 1
    exact List.map_congr_left fun k hk =>
      (Ledger.path_inside_of_lt (List.mem_range.1 hk)).symm
  scope := by
    rw [Environment.pushOn, hl.size]
    exact (Ledger.path_inside_length hi).symm
  values j x := by
    rw [Environment.frame, Environment.pushOn, Bindings.getD_push_empty]
    exact hl.values j x

theorem owner?_eq (hl : h.Follows l) (i : Nat) (x : String) :
    h.env.owner? (l.path i) x = l.owner? i x := by
  simp only [Environment.owner?, Ledger.owner?, hl.values]

theorem lookupIn_eq (hl : h.Follows l) (i : Nat) (x : String) :
    h.env.lookupIn (l.path i) x = l.read i x := by
  simp only [Environment.lookupIn, Ledger.read, hl.values]

theorem assign_eq (hl : h.Follows l) :
    h.env.assign name value =
      (l.owner? l.current name).map fun i => h.env.write i name value := by
  rw [Environment.assign, hl.scope, hl.owner?_eq]

/-- The nearest frame that has a name is a frame that there is. -/
theorem lt_of_owner? (hl : h.Follows l) (ho : l.owner? l.current name = some i) :
    i < l.parents.length :=
  Nat.lt_of_le_of_lt (le_of_mem_outward (List.mem_of_find?_eq_some ho)) hl.founded.current

/-- An operation leads to an environment that is as the record of it says. -/
theorem apply (hl : h.Follows l) (op : Operation) : (h.apply op).Follows (l.apply op) := by
  have hpos : globalFrame < l.parents.length :=
    (List.getElem?_eq_some_iff.1 ((hl.founded.global globalFrame).2 rfl)).1
  cases op with
  | define name value =>
    obtain ⟨rest, hrest⟩ := List.head?_eq_some_iff.1 (hl.founded.descends hl.founded.current).1
    have hdefine : h.env.define name value = h.env.write l.current name value := by
      rw [Environment.define, hl.scope, hrest]
    rw [Handled.apply, hdefine]
    exact hl.write hl.founded.current
  | defineGlobal name value => exact hl.write hpos
  | assign name value =>
    rw [Handled.apply, Ledger.apply, hl.assign_eq]
    cases ho : l.owner? l.current name with
    | none => exact hl
    | some i => exact hl.write (hl.lt_of_owner? ho)
  | push =>
    have := hl.pushOn hl.founded.current
    rwa [← hl.scope] at this
  | enter i =>
    rw [Handled.apply, Ledger.apply, hl.getElem?_paths]
    by_cases hi : i < l.parents.length
    · rw [if_pos hi, if_pos hi]
      exact ⟨⟨hl.founded.older, hl.founded.global, hi⟩, hl.size, hl.paths, rfl, hl.values⟩
    · rw [if_neg hi, if_neg hi]
      exact hl
  | enterChild i =>
    rw [Handled.apply, Ledger.apply, hl.getElem?_paths]
    by_cases hi : i < l.parents.length
    · rw [if_pos hi, if_pos hi]
      exact hl.pushOn hi
    · rw [if_neg hi, if_neg hi]
      exact hl

theorem foldl (hl : h.Follows l) (ops : List Operation) :
    (ops.foldl Handled.apply h).Follows (ops.foldl Ledger.apply l) := by
  induction ops generalizing h l with
  | nil => exact hl
  | cons op ops ih => exact ih (hl.apply op)

theorem run (ops : List Operation) : (Handled.run ops).Follows (.run ops) := fresh.foldl ops

/-- The new value of an assignment is written to the nearest frame that has the name. -/
theorem overwrites (hl : h.Follows l) {env : Environment}
    (ha : h.env.assign name value = some env) :
    ∃ i, l.owner? l.current name = some i ∧ h.env.Overwrites env i name value := by
  rw [hl.assign_eq] at ha
  obtain ⟨i, ho, rfl⟩ := Option.map_eq_some_iff.1 ha
  have hi := hl.lt_of_owner? ho
  refine ⟨i, ho, ?_, rfl, by simp [Environment.write], Environment.get?_frame_write (hl.size ▸ hi)⟩
  rw [hl.values]
  simpa using List.find?_some ho

end Handled.Follows

/-! ### The law -/

/-- The law of the nearest binding, for an environment and a record. Where a name is looked up from
a frame, the frames are those of the path from this frame. -/
structure Handled.Lawful (h : Handled) (l : Ledger) : Prop where
  /-- Every frame has a path. -/
  count : h.paths.length = h.env.frames.size
  current : h.paths[l.current]? = some h.env.scope
  /-- A path goes from a frame to the frame that it was made in, which is older, and to the global
  frame at last. -/
  paths : ∀ i path, h.paths[i]? = some path → path = l.path i ∧ path.Pairwise (· > ·) ∧
    path.getLast? = some globalFrame
  around : ∀ i j : Nat, l.parents[i]? = some (some j) → l.path i = i :: l.path j
  /-- A name has the value that was written to it last in the nearest frame that has it. -/
  lookup : ∀ i path x, h.paths[i]? = some path → h.env.lookupIn path x = l.read i x
  /-- An assignment fails if the name has no value, and then does nothing. -/
  assign_none : ∀ x v, (h.env.assign x v = none ↔ h.env.lookup x = none) ∧
    (h.env.lookup x = none → h.apply (.assign x v) = h)
  /-- An assignment overwrites the nearest binding of the name, and its value is found from the
  frames that have the same nearest binding. -/
  assign_some : ∀ x v env, h.env.assign x v = some env → ∃ i, l.owner? l.current x = some i ∧
    h.env.Overwrites env i x v ∧ ∀ j path y, h.paths[j]? = some path →
      env.lookupIn path y =
        if y = x ∧ l.owner? j x = some i then some v else h.env.lookupIn path y

theorem Handled.Follows.lawful {h : Handled} {l : Ledger} (hl : h.Follows l) : h.Lawful l := by
  have hpath {i : Nat} {path : Scope} (hi : h.paths[i]? = some path) :
      i < l.parents.length ∧ path = l.path i := by
    rw [hl.getElem?_paths] at hi
    split at hi
    · next hlt => exact ⟨hlt, (Option.some.inj hi).symm⟩
    · cases hi
  refine ⟨?_, ?_, fun i path hi => ?_, fun i j => hl.founded.path_inside, fun i path x hi => ?_,
    fun x v => ⟨h.env.assign_eq_none_iff x v, fun hnone => ?_⟩, fun x v env ha => ?_⟩
  · rw [hl.paths, hl.size, List.length_map, List.length_range]
  · rw [hl.getElem?_paths, if_pos hl.founded.current, hl.scope]
  · obtain ⟨hlt, rfl⟩ := hpath hi
    exact ⟨rfl, (hl.founded.descends hlt).2⟩
  · obtain ⟨-, rfl⟩ := hpath hi
    exact hl.lookupIn_eq i x
  · rw [Handled.apply, (h.env.assign_eq_none_iff x v).2 hnone, Option.getD_none]
  · obtain ⟨i, ho, hover⟩ := hl.overwrites ha
    refine ⟨i, ho, hover, fun j path y hj => ?_⟩
    obtain ⟨-, rfl⟩ := hpath hj
    rw [hover.lookupIn_eq, hl.owner?_eq]

/-- **The law of the nearest binding** holds after any operations on a fresh environment. -/
theorem nearest_binding (ops : List Operation) : (Handled.run ops).Lawful (.run ops) :=
  (Handled.Follows.run ops).lawful

/-- A counter in a block that is left again, and a call of a function from this block. -/
def counting : List Operation :=
  [.define "total" (.int 7), .push, .define "n" (.int 0), .enter 1, .enterChild 2]

/-- The call finds the counter, and counts where the block finds it too, but the top level does
not. -/
theorem nearest_binding_counting : ∃ env,
    (Handled.run counting).env.assign "n" (.int 1) = some env ∧
    env.lookupIn [2, 1, 0] "n" = some (.int 1) ∧ env.lookupIn [1, 0] "n" = none ∧
    env.lookupIn [3, 2, 1, 0] "total" = some (.int 7) := by
  have hlaw := nearest_binding counting
  have howner (i : Nat) (path : Scope) (h : (Handled.run counting).paths[i]? = some path) :
      (Ledger.run counting).owner? i "n" =
        path.find? fun j => ((Ledger.run counting).value? j "n").isSome := by
    rw [(hlaw.paths i path h).1]
    rfl
  cases ha : (Handled.run counting).env.assign "n" (.int 1) with
  | none => cases (hlaw.assign_none "n" (.int 1)).1.1 ha
  | some env =>
    obtain ⟨i, ho, -, hlookup⟩ := hlaw.assign_some _ _ _ ha
    obtain rfl : 2 = i := Option.some.inj ((howner 3 [3, 2, 1, 0] rfl).symm.trans ho)
    refine ⟨env, rfl, ?_, ?_, ?_⟩
    · rw [hlookup 2 [2, 1, 0] "n" rfl, if_pos ⟨rfl, howner 2 [2, 1, 0] rfl⟩]
    · have hnone : (Ledger.run counting).owner? 1 "n" = none := howner 1 [1, 0] rfl
      rw [hlookup 1 [1, 0] "n" rfl, if_neg (by simp [hnone])]
      rfl
    · rw [hlookup 3 [3, 2, 1, 0] "total" rfl, if_neg (by simp)]
      rfl

end Lox
