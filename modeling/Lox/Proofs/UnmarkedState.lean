import Lox.Evaluation
import Lox.Execution
import Lox.Proofs.Unmarked

/-!
# States without marks

A state keeps trees in the functions that its values are. This is the state without the marks of
those trees, and without what no running code reads: its program and its output.

* `Value.unmarked`, `Environment.unmarked`, `State.unmarked`;
* one lemma for each operation: on what is unmarked, it does the same;
* `State.Alike`: two states that are the same but for marks, programs and earlier output.
-/

namespace Lox

/-! ### Values -/

/-- A function without the marks of its body, and of no program. -/
def Function.unmarked (f : Function) : Function :=
  { f with body := unmarkedAll f.body, program := .empty }

/-- A value without marks. -/
def Value.unmarked : Value → Value
  | function id f => .function id f.unmarked
  | v => v

namespace Value

@[simp] theorem type_unmarked (v : Value) : v.unmarked.type = v.type := by
  cases v <;> rfl

@[simp] theorem truthy_unmarked (v : Value) : v.unmarked.truthy = v.truthy := by
  cases v <;> rfl

@[simp] theorem number?_unmarked (v : Value) : v.unmarked.number? = v.number? := by
  cases v <;> rfl

@[simp] theorem arity?_unmarked (v : Value) : v.unmarked.arity? = v.arity? := by
  cases v <;> rfl

@[simp] theorem display_unmarked (v : Value) : v.unmarked.display = v.display := by
  cases v <;> rfl

end Value

@[simp] theorem UnaryOp.apply_unmarked (op : UnaryOp) (v : Value) :
    op.apply v.unmarked = op.apply v := by
  cases v with
  | function => cases op <;> rfl
  | _ => rfl

@[simp] theorem BinaryOp.apply_unmarked (op : BinaryOp) (v w : Value) :
    op.apply v.unmarked w.unmarked = op.apply v w := by
  cases v with
  | function => cases w <;> cases op <;> rfl
  | _ =>
    cases w with
    | function => cases op <;> rfl
    | _ => rfl

/-! ### Bindings -/

namespace Bindings

variable {α β : Type}

/-- Gives each name the image of its value. -/
def map (g : α → β) (b : Bindings α) : Bindings β :=
  ⟨b.entries.map fun e => (e.1, g e.2), List.pairwise_map.2 b.sorted⟩

@[simp] theorem get?_map (g : α → β) (b : Bindings α) (name : String) :
    (b.map g).get? name = (b.get? name).map g := by
  obtain ⟨es, hes⟩ := b
  simp only [map, get?]
  clear hes
  induction es with
  | nil => rfl
  | cons e es ih =>
    obtain ⟨x, v⟩ := e
    simp only [List.map_cons, List.lookup_cons]
    by_cases h : name = x
    · simp [h]
    · rw [beq_eq_false_iff_ne.2 h, ih]

@[simp] theorem map_empty (g : α → β) : (∅ : Bindings α).map g = ∅ := rfl

@[simp] theorem map_insert (g : α → β) (b : Bindings α) (name : String) (value : α) :
    (b.insert name value).map g = (b.map g).insert name (g value) := by
  refine ext_get? fun x => ?_
  rw [get?_map, get?_insert, get?_insert, get?_map]
  split <;> rfl

end Bindings

/-! ### Environments -/

theorem map_modify {α β : Type} {g : α → β} {f : α → α} {f' : β → β} (h : ∀ a, g (f a) = f' (g a))
    (as : Array α) (i : Nat) : (as.modify i f).map g = (as.map g).modify i f' := by
  apply Array.ext_getElem?
  intro j
  rw [Array.getElem?_map, Array.getElem?_modify, Array.getElem?_modify, Array.getElem?_map]
  split
  · cases as[j]? <;> simp [h]
  · rfl

theorem getD_map {α β : Type} (g : α → β) (as : Array α) (i : Nat) (a : α) :
    (as.map g).getD i (g a) = g (as.getD i a) := by
  rw [Array.getD_eq_getD_getElem?, Array.getD_eq_getD_getElem?, Array.getElem?_map]
  cases as[i]? <;> rfl

/-- Frames, or the fields of objects, without marks. -/
def unmarkedBindings (as : Array (Bindings Value)) : Array (Bindings Value) :=
  as.map (·.map Value.unmarked)

theorem unmarkedBindings_insert (as : Array (Bindings Value)) (i : Nat) (name : String)
    (value : Value) : unmarkedBindings (as.modify i (·.insert name value)) =
      (unmarkedBindings as).modify i (·.insert name value.unmarked) :=
  map_modify (fun b => b.map_insert Value.unmarked name value) as i

theorem unmarkedBindings_push (as : Array (Bindings Value)) :
    unmarkedBindings (as.push ∅) = (unmarkedBindings as).push ∅ := by
  rw [unmarkedBindings, Array.map_push, Bindings.map_empty, unmarkedBindings]

theorem unmarkedBindings_getD (as : Array (Bindings Value)) (i : Nat) :
    (unmarkedBindings as).getD i ∅ = (as.getD i ∅).map Value.unmarked :=
  getD_map (Bindings.map Value.unmarked) as i ∅

@[simp] theorem size_unmarkedBindings (as : Array (Bindings Value)) :
    (unmarkedBindings as).size = as.size :=
  Array.size_map

namespace Environment

/-- An environment without marks. -/
def unmarked (env : Environment) : Environment := ⟨unmarkedBindings env.frames, env.scope⟩

variable (env : Environment)

@[simp] theorem scope_unmarked : env.unmarked.scope = env.scope := rfl

@[simp] theorem frame_unmarked (i : Nat) :
    env.unmarked.frame i = (env.frame i).map Value.unmarked :=
  unmarkedBindings_getD env.frames i

@[simp] theorem owner?_unmarked (scope : Scope) (name : String) :
    env.unmarked.owner? scope name = env.owner? scope name := by
  simp [owner?]

theorem lookup_unmarked (name : String) :
    env.unmarked.lookup name = (env.lookup name).map Value.unmarked := by
  rw [lookup, lookup, lookupIn_eq_bind_owner?, lookupIn_eq_bind_owner?, owner?_unmarked,
    scope_unmarked]
  cases env.owner? env.scope name <;> simp

theorem unmarked_write (i : Nat) (name : String) (value : Value) :
    (env.write i name value).unmarked = env.unmarked.write i name value.unmarked := by
  rw [write, unmarked, unmarkedBindings_insert]
  rfl

theorem unmarked_define (name : String) (value : Value) :
    (env.define name value).unmarked = env.unmarked.define name value.unmarked := by
  unfold define
  rw [scope_unmarked]
  split
  · rfl
  · exact env.unmarked_write _ name value

theorem unmarked_pushOn (scope : Scope) :
    (env.pushOn scope).unmarked = env.unmarked.pushOn scope := by
  rw [pushOn, unmarked, unmarkedBindings_push, pushOn, unmarked, size_unmarkedBindings]

/-- What is shown of a frame are the texts of its values. -/
theorem renderFrame_congr {b c : Bindings Value}
    (h : ∀ x, (b.get? x).map Value.display = (c.get? x).map Value.display) :
    renderFrame b = renderFrame c := by
  have htexts : b.map Value.display = c.map Value.display :=
    Bindings.ext_get? fun x => by rw [Bindings.get?_map, Bindings.get?_map, h x]
  have hrender (d : Bindings Value) : renderFrame d = ", ".intercalate
      ((d.map Value.display).entries.map fun (name, text) => s!"{name} = {text}") := by
    simp [renderFrame, Bindings.map, Function.comp_def]
  rw [hrender, hrender, htexts]

theorem renderFrame_map (b : Bindings Value) :
    renderFrame (b.map Value.unmarked) = renderFrame b := by
  simp [renderFrame, Bindings.map, Function.comp_def]

/-- A dump tells nothing of marks. -/
theorem dump_unmarked : env.unmarked.dump = env.dump := by
  have hfrom : ∀ scope index, env.unmarked.dumpFrom index scope = env.dumpFrom index scope := by
    intro scope
    induction scope with
    | nil => intro index; rfl
    | cons i outer ih =>
      intro index
      rw [dumpFrom, dumpFrom, ih, frame_unmarked, renderFrame_map]
  exact hfrom env.scope 0

end Environment

theorem Function.unmarked_enter (f : Function) (args : List Value) (env : Environment) :
    (f.enter args env).unmarked = f.unmarked.enter (args.map Value.unmarked) env.unmarked := by
  have hpush : env.unmarked.pushOn f.unmarked.scope = (env.pushOn f.scope).unmarked :=
    (env.unmarked_pushOn f.scope).symm
  rw [enter, enter, hpush, List.zip_map_right, List.foldl_map]
  refine (List.foldl_hom Environment.unmarked fun env (e : String × Value) => ?_).symm
  exact (env.unmarked_define e.1 e.2).symm

/-! ### States -/

/-- A state without marks, program and output. -/
def State.unmarked (s : State) : State :=
  { s with
    env := s.env.unmarked, objects := unmarkedBindings s.objects, output := "", program := .empty }

/-- States that are the same, but for marks and programs, and for what was printed before: `base`
and `base'` were. -/
structure State.Alike (base base' : String) (s t : State) : Prop where
  unmarked : s.unmarked = t.unmarked
  output : ∃ out, s.output = base ++ out ∧ t.output = base' ++ out

namespace State.Alike

variable {base base' : String} {s t : State}

theorem symm (h : s.Alike base base' t) : t.Alike base' base s := by
  obtain ⟨out, hs, ht⟩ := h.output
  exact ⟨h.unmarked.symm, out, ht, hs⟩

theorem env (h : s.Alike base base' t) : s.env.unmarked = t.env.unmarked :=
  congrArg State.env h.unmarked

theorem scope (h : s.Alike base base' t) : s.env.scope = t.env.scope :=
  show s.env.unmarked.scope = t.env.unmarked.scope from congrArg Environment.scope h.env

theorem objects (h : s.Alike base base' t) :
    unmarkedBindings s.objects = unmarkedBindings t.objects :=
  congrArg State.objects h.unmarked

theorem nextId (h : s.Alike base base' t) : s.nextId = t.nextId :=
  show s.unmarked.nextId = t.unmarked.nextId from congrArg State.nextId h.unmarked

theorem depth (h : s.Alike base base' t) : s.depth = t.depth :=
  show s.unmarked.depth = t.unmarked.depth from congrArg State.depth h.unmarked

theorem clock (h : s.Alike base base' t) : s.clock = t.clock :=
  show s.unmarked.clock = t.unmarked.clock from congrArg State.clock h.unmarked

theorem withEnv (h : s.Alike base base' t) {e e' : Environment} (he : e.unmarked = e'.unmarked) :
    { s with env := e }.Alike base base' { t with env := e' } := by
  refine ⟨?_, h.output⟩
  show { s.unmarked with env := e.unmarked } = { t.unmarked with env := e'.unmarked }
  rw [h.unmarked, he]

theorem withObjects (h : s.Alike base base' t) {os os' : Array (Bindings Value)}
    (hos : unmarkedBindings os = unmarkedBindings os') :
    { s with objects := os }.Alike base base' { t with objects := os' } := by
  refine ⟨?_, h.output⟩
  show { s.unmarked with objects := unmarkedBindings os } =
    { t.unmarked with objects := unmarkedBindings os' }
  rw [h.unmarked, hos]

theorem withNextId (h : s.Alike base base' t) {n n' : Nat} (hn : n = n') :
    { s with nextId := n }.Alike base base' { t with nextId := n' } := by
  refine ⟨?_, h.output⟩
  show { s.unmarked with nextId := n } = { t.unmarked with nextId := n' }
  rw [h.unmarked, hn]

theorem withDepth (h : s.Alike base base' t) {n n' : Nat} (hn : n = n') :
    { s with depth := n }.Alike base base' { t with depth := n' } := by
  refine ⟨?_, h.output⟩
  show { s.unmarked with depth := n } = { t.unmarked with depth := n' }
  rw [h.unmarked, hn]

theorem withClock (h : s.Alike base base' t) (clock : Clock) :
    { s with clock }.Alike base base' { t with clock } := by
  refine ⟨?_, h.output⟩
  show { s.unmarked with clock } = { t.unmarked with clock }
  rw [h.unmarked]

theorem withProgram (h : s.Alike base base' t) (p p' : Program) :
    { s with program := p }.Alike base base' { t with program := p' } :=
  ⟨h.unmarked, h.output⟩

theorem print (h : s.Alike base base' t) (text : String) :
    { s with output := s.output ++ text }.Alike base base'
      { t with output := t.output ++ text } := by
  obtain ⟨out, hs, ht⟩ := h.output
  exact ⟨h.unmarked, out ++ text, by rw [hs, String.append_assoc], by rw [ht, String.append_assoc]⟩

end State.Alike

end Lox
