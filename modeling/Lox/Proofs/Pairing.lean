import Mathlib.Data.List.Forall2
import Lox.Proofs.Braces
import Lox.Proofs.Reachability
import Lox.Proofs.ScopeGraph
import Lox.Proofs.UnmarkedState

/-!
# Paired frames

Braces around a statement make a frame that stays empty. So two runs of which the second one meets
more braces have the same frames but for spare ones of the second, which have no names, and which
change neither what a name means along a path nor where it is assigned.

* `Pairing`, `Pairs`, `Spare`, `Matching`: which frames belong together, and how pairings grow;
* `Along`, `Abreast`: paths along paired and spare frames, and those that start with a pair;
* `Value.Corresponds`, `Environment.Corresponds`, `State.Corresponds`: what two runs hold, with a
  lemma for each way to look at it or to change it.
-/

namespace Lox

/-! ### Pairings -/

/-- What the frames of a second environment are to those of a first one: each of them is paired with
a frame of the first one, or else it is a spare frame. -/
abbrev Pairing := List (Option Nat)

variable {w w' : Pairing} {i j k : Nat}

/-- The frame `i` of the first environment is paired with the frame `j` of the second one. -/
def Pairs (w : Pairing) (i j : Nat) : Prop := w[j]? = some (some i)

/-- The frame `j` of the second environment is a spare one. -/
def Spare (w : Pairing) (j : Nat) : Prop := w[j]? = some none

theorem Pairs.mono (h : Pairs w i j) (hle : w <+: w') : Pairs w' i j := getElem?_of_isPrefix hle h

theorem Spare.mono (h : Spare w j) (hle : w <+: w') : Spare w' j := getElem?_of_isPrefix hle h

theorem Pairs.left_unique (h : Pairs w i j) (h' : Pairs w k j) : i = k :=
  Option.some.inj (Option.some.inj (h.symm.trans h'))

theorem Pairs.not_spare (h : Pairs w i j) : ¬ Spare w j := fun h' =>
  Option.some_ne_none i (Option.some.inj (h.symm.trans h'))

theorem getElem?_concat_eq_some {a b : Option Nat} :
    (w ++ [a])[j]? = some b ↔ w[j]? = some b ∨ j = w.length ∧ a = b := by
  rcases Nat.lt_trichotomy j w.length with hlt | rfl | hlt
  · simp [List.getElem?_append_left hlt, Nat.ne_of_lt hlt]
  · simp
  · rw [List.getElem?_append_right (Nat.le_of_lt hlt), List.getElem?_eq_none (Nat.le_of_lt hlt),
      List.getElem?_eq_none (by simp; omega)]
    simp [Nat.ne_of_gt hlt]

/-- A pairing of `m` frames with some of `n` frames, each with another one. -/
structure Matching (w : Pairing) (m n : Nat) : Prop where
  length : w.length = n
  lt : ∀ {i j}, Pairs w i j → i < m
  right_unique : ∀ {i j k}, Pairs w i j → Pairs w i k → j = k

namespace Matching

variable {m n : Nat}

theorem lt_right (h : Matching w m n) (hij : Pairs w i j) : j < n :=
  h.length ▸ (List.getElem?_eq_some_iff.1 hij).1

/-- A new frame on each side, which are paired. -/
theorem pair (h : Matching w m n) : Matching (w ++ [some m]) (m + 1) (n + 1) where
  length := by simp [h.length]
  lt hij := by
    rcases getElem?_concat_eq_some.1 hij with hold | ⟨-, hnew⟩
    · exact Nat.lt_succ_of_lt (h.lt hold)
    · obtain rfl := Option.some.inj hnew
      exact Nat.lt_succ_self m
  right_unique hij hik := by
    rcases getElem?_concat_eq_some.1 hij with hold | ⟨rfl, hnew⟩
    · rcases getElem?_concat_eq_some.1 hik with hold' | ⟨rfl, hnew'⟩
      · exact h.right_unique hold hold'
      · obtain rfl := Option.some.inj hnew'
        exact absurd (h.lt hold) (Nat.lt_irrefl m)
    · obtain rfl := Option.some.inj hnew
      rcases getElem?_concat_eq_some.1 hik with hold' | ⟨rfl, -⟩
      · exact absurd (h.lt hold') (Nat.lt_irrefl m)
      · rfl

/-- A new frame of the second environment only. -/
theorem spare (h : Matching w m n) : Matching (w ++ [none]) m (n + 1) where
  length := by simp [h.length]
  lt hij := by
    rcases getElem?_concat_eq_some.1 hij with hold | ⟨-, hnew⟩
    · exact h.lt hold
    · cases hnew
  right_unique hij hik := by
    rcases getElem?_concat_eq_some.1 hij with hold | ⟨-, hnew⟩
    · rcases getElem?_concat_eq_some.1 hik with hold' | ⟨-, hnew'⟩
      · exact h.right_unique hold hold'
      · cases hnew'
    · cases hnew

theorem pairs_new (h : Matching w m n) : Pairs (w ++ [some m]) m n :=
  getElem?_concat_eq_some.2 (.inr ⟨h.length.symm, rfl⟩)

theorem spare_new (h : Matching w m n) : Spare (w ++ [none]) n :=
  getElem?_concat_eq_some.2 (.inr ⟨h.length.symm, rfl⟩)

end Matching

/-- The pairing of frames with themselves. -/
def Pairing.identity (n : Nat) : Pairing := (List.range n).map some

theorem pairs_identity {n : Nat} : Pairs (.identity n) i j ↔ i = j ∧ j < n := by
  rw [Pairs, Pairing.identity, List.getElem?_map]
  rcases Nat.lt_or_ge j n with hlt | hge
  · simp [hlt, eq_comm]
  · rw [List.getElem?_eq_none (by simpa using hge)]
    simp [Nat.not_lt.2 hge]

theorem not_spare_identity {n : Nat} : ¬ Spare (.identity n) j := by
  simp [Spare, Pairing.identity]

theorem matching_identity (n : Nat) : Matching (.identity n) n n where
  length := by simp [Pairing.identity]
  lt hij := by
    obtain ⟨rfl, hlt⟩ := pairs_identity.1 hij
    exact hlt
  right_unique hij hik := (pairs_identity.1 hij).1.symm.trans (pairs_identity.1 hik).1

/-! ### Paths -/

variable {σ τ ρ ρ' : Scope}

/-- Along the second of two paths are the frames that are paired with those along the first one, in
the same order, and spare frames. -/
inductive Along (w : Pairing) : Scope → Scope → Prop
  | nil : Along w [] []
  | pair {i j : Nat} {σ τ : Scope} (head : Pairs w i j) (tail : Along w σ τ) :
    Along w (i :: σ) (j :: τ)
  | spare {j : Nat} {σ τ : Scope} (head : Spare w j) (tail : Along w σ τ) : Along w σ (j :: τ)

theorem Along.mono (h : Along w σ τ) (hle : w <+: w') : Along w' σ τ := by
  induction h with
  | nil => exact .nil
  | pair head _ ih => exact .pair (head.mono hle) ih
  | spare head _ ih => exact .spare (head.mono hle) ih

/-- The first frames of two paths are paired. -/
inductive Abreast (w : Pairing) : Scope → Scope → Prop
  | intro {i j : Nat} {σ τ : Scope} (head : Pairs w i j) : Abreast w (i :: σ) (j :: τ)

theorem Abreast.mono (h : Abreast w σ τ) (hle : w <+: w') : Abreast w' σ τ := by
  obtain ⟨head⟩ := h
  exact ⟨head.mono hle⟩

/-- Every frame of a path is paired with itself. -/
theorem Along.of_pairs_self (h : ∀ i ∈ σ, Pairs w i i) : Along w σ σ := by
  induction σ with
  | nil => exact .nil
  | cons i σ ih => exact .pair (h i (.head _)) (ih fun k hk => h k (.tail _ hk))

/-! ### Values -/

/-- Functions that are the same but for braces, made in paths along pairs. -/
structure Function.Corresponds (w : Pairing) (f g : Function) : Prop where
  name : f.name = g.name
  params : f.params = g.params
  body : AllBraced f.body g.body
  scope : Along w f.scope g.scope

theorem Function.Corresponds.mono {f g : Function} (h : f.Corresponds w g) (hle : w <+: w') :
    f.Corresponds w' g :=
  ⟨h.name, h.params, h.body, h.scope.mono hle⟩

/-- The same value, or functions with one number that correspond. -/
inductive Value.Corresponds (w : Pairing) : Value → Value → Prop
  | same {v : Value} (h : v.Each fun _ => False) : Corresponds w v v
  | function {id : Nat} {f g : Function} (h : f.Corresponds w g) :
    Corresponds w (.function id f) (.function id g)

namespace Value.Corresponds

variable {u u' v v' : Value}

theorem mono (h : v.Corresponds w v') (hle : w <+: w') : v.Corresponds w' v' := by
  cases h with
  | same h => exact .same h
  | function h => exact .function (h.mono hle)

theorem of_plain (h : v.Plain) : v.Corresponds w v := .same (Value.Plain.each h)

theorem type_eq (h : v.Corresponds w v') : v.type = v'.type := by
  cases h <;> rfl

theorem truthy_eq (h : v.Corresponds w v') : v.truthy = v'.truthy := by
  cases h <;> rfl

theorem number?_eq (h : v.Corresponds w v') : v.number? = v'.number? := by
  cases h <;> rfl

theorem arity?_eq (h : v.Corresponds w v') : v.arity? = v'.arity? := by
  cases h with
  | same => rfl
  | function h => simp only [Value.arity?, h.params]

theorem display_eq (h : v.Corresponds w v') : v.display = v'.display := by
  cases h with
  | same => rfl
  | function h => simp only [Value.display, h.name]

theorem unary_eq (h : v.Corresponds w v') (op : UnaryOp) : op.apply v = op.apply v' := by
  cases h with
  | same => rfl
  | function => cases op <;> rfl

/-- Operators tell functions apart by their numbers only. -/
theorem binary_eq (h : v.Corresponds w v') (h' : u.Corresponds w u') (op : BinaryOp) :
    op.apply v u = op.apply v' u' := by
  cases h with
  | same =>
    cases h' with
    | same => rfl
    | function => cases v <;> cases op <;> rfl
  | function =>
    cases h' with
    | same => cases u <;> cases op <;> rfl
    | function => cases op <;> rfl

theorem decides_eq (h : v.Corresponds w v') (op : LogicalOp) : op.decides v = op.decides v' := by
  cases op with
  | or => exact h.truthy_eq
  | and => exact congrArg (! ·) h.truthy_eq

end Value.Corresponds

/-- Lists of corresponding values. -/
abbrev ValuesCorrespond (w : Pairing) (vs vs' : List Value) : Prop :=
  List.Forall₂ (Value.Corresponds w) vs vs'

theorem ValuesCorrespond.mono {vs vs' : List Value} (h : ValuesCorrespond w vs vs')
    (hle : w <+: w') : ValuesCorrespond w' vs vs' :=
  h.imp fun _ _ hv => hv.mono hle

theorem Builtin.apply_eq {vs vs' : List Value} (h : ValuesCorrespond w vs vs') (builtin : Builtin)
    (now : Float) : builtin.apply now vs = builtin.apply now vs' := by
  cases builtin with
  | sqrt =>
    cases h with
    | nil => rfl
    | cons head tail =>
      cases tail with
      | nil => simp only [Builtin.apply, head.number?_eq, head.type_eq]
      | cons _ tail => simp [Builtin.apply, tail.length_eq]
  | _ => rfl

/-! ### Bindings -/

theorem optionRel_cases {α β : Type} {R : α → β → Prop} {a : Option α} {b : Option β}
    (h : Option.Rel R a b) :
    (a = none ∧ b = none) ∨ ∃ x y, a = some x ∧ b = some y ∧ R x y := by
  cases h with
  | none => exact .inl ⟨rfl, rfl⟩
  | some h => exact .inr ⟨_, _, rfl, rfl, h⟩

/-- Bindings of the same names to corresponding values. -/
def Bindings.Corresponds (w : Pairing) (b c : Bindings Value) : Prop :=
  ∀ x, Option.Rel (Value.Corresponds w) (b.get? x) (c.get? x)

namespace Bindings.Corresponds

variable {b c : Bindings Value}

theorem mono (h : b.Corresponds w c) (hle : w <+: w') : b.Corresponds w' c := by
  intro x
  rcases optionRel_cases (h x) with ⟨hb, hc⟩ | ⟨v, v', hb, hc, hv⟩ <;> rw [hb, hc]
  · exact .none
  · exact .some (hv.mono hle)

theorem empty : (∅ : Bindings Value).Corresponds w ∅ := fun _ => .none

theorem insert (h : b.Corresponds w c) (name : String) {v v' : Value} (hv : v.Corresponds w v') :
    (b.insert name v).Corresponds w (c.insert name v') := by
  intro x
  rw [get?_insert, get?_insert]
  split
  · exact .some hv
  · exact h x

theorem isSome_eq (h : b.Corresponds w c) (x : String) :
    (b.get? x).isSome = (c.get? x).isSome := by
  rcases optionRel_cases (h x) with ⟨hb, hc⟩ | ⟨v, v', hb, hc, -⟩ <;> simp [hb, hc]

theorem renderFrame_eq (h : b.Corresponds w c) :
    Environment.renderFrame b = Environment.renderFrame c := by
  refine Environment.renderFrame_congr fun x => ?_
  rcases optionRel_cases (h x) with ⟨hb, hc⟩ | ⟨v, v', hb, hc, hv⟩ <;> rw [hb, hc]
  exact congrArg some hv.display_eq

end Bindings.Corresponds

/-! ### Environments -/

/-- Environments with the scopes `σ` and `τ`, which are along pairs. Paired frames give the same
names to corresponding values, and spare frames have no names. -/
structure Environment.Corresponds (w : Pairing) (σ τ : Scope) (e e' : Environment) : Prop where
  matching : Matching w e.frames.size e'.frames.size
  frames : ∀ {i j}, Pairs w i j → (e.frame i).Corresponds w (e'.frame j)
  spare : ∀ {j}, Spare w j → e'.frame j = ∅
  scope : e.scope = σ
  scope' : e'.scope = τ
  path : Along w σ τ

namespace Environment

theorem frame_write (env : Environment) (i k : Nat) (name : String) (value : Value) :
    (env.write i name value).frame k =
      if i = k ∧ k < env.frames.size then (env.frame k).insert name value else env.frame k :=
  Bindings.getD_modify_insert env.frames i k name value

theorem frame_pushOn (env : Environment) (scope : Scope) (k : Nat) :
    (env.pushOn scope).frame k = env.frame k :=
  Bindings.getD_push_empty env.frames k

theorem frame_size (env : Environment) : env.frame env.frames.size = ∅ :=
  Store.getD_eq_empty (Nat.le_refl _)

namespace Corresponds

variable {e e' : Environment}

theorem lookupIn (h : e.Corresponds w σ τ e') (hpath : Along w ρ ρ') (x : String) :
    Option.Rel (Value.Corresponds w) (e.lookupIn ρ x) (e'.lookupIn ρ' x) := by
  -- a spare frame has no names, so that the search passes it
  induction hpath with
  | nil => exact .none
  | @pair i j ρ ρ' head _ ih =>
    rw [Environment.lookupIn, Environment.lookupIn, List.findSome?_cons, List.findSome?_cons]
    rcases optionRel_cases (h.frames head x) with ⟨he, he'⟩ | ⟨v, v', he, he', hv⟩ <;> rw [he, he']
    · exact ih
    · exact .some hv
  | @spare j ρ ρ' head _ ih =>
    have hpass : e'.lookupIn (j :: ρ') x = e'.lookupIn ρ' x := by
      rw [Environment.lookupIn, List.findSome?_cons, h.spare head, Bindings.get?_empty,
        Environment.lookupIn]
    rwa [hpass]

theorem lookup (h : e.Corresponds w σ τ e') (x : String) :
    Option.Rel (Value.Corresponds w) (e.lookup x) (e'.lookup x) := by
  rw [Environment.lookup, Environment.lookup, h.scope, h.scope']
  exact h.lookupIn h.path x

theorem owner? (h : e.Corresponds w σ τ e') (x : String) :
    Option.Rel (Pairs w) (e.owner? e.scope x) (e'.owner? e'.scope x) := by
  have hpaths : ∀ {ρ ρ'}, Along w ρ ρ' → Option.Rel (Pairs w) (e.owner? ρ x) (e'.owner? ρ' x) := by
    intro ρ ρ' hpath
    induction hpath with
    | nil => exact .none
    | @pair i j ρ ρ' head _ ih =>
      rw [Environment.owner?, Environment.owner?, List.find?_cons, List.find?_cons,
        (h.frames head).isSome_eq]
      cases ((e'.frame j).get? x).isSome with
      | true => exact .some head
      | false => exact ih
    | @spare j ρ ρ' head _ ih =>
      have hpass : e'.owner? (j :: ρ') x = e'.owner? ρ' x := by
        rw [Environment.owner?, List.find?_cons, h.spare head, Bindings.get?_empty,
          Environment.owner?]
        rfl
      rwa [hpass]
  rw [h.scope, h.scope']
  exact hpaths h.path

/-- A name gets corresponding values in paired frames. -/
theorem write (h : e.Corresponds w σ τ e') (hij : Pairs w i j) (x : String) {v v' : Value}
    (hv : v.Corresponds w v') :
    (e.write i x v).Corresponds w σ τ (e'.write j x v') where
  matching := by simpa [Environment.write] using h.matching
  frames {k l} hkl := by
    have hiff : (i = k ∧ k < e.frames.size) ↔ (j = l ∧ l < e'.frames.size) := by
      constructor
      · rintro ⟨rfl, -⟩
        exact ⟨h.matching.right_unique hij hkl, h.matching.lt_right hkl⟩
      · rintro ⟨rfl, -⟩
        exact ⟨hij.left_unique hkl, h.matching.lt hkl⟩
    rw [frame_write, frame_write]
    by_cases hik : i = k ∧ k < e.frames.size
    · rw [if_pos hik, if_pos (hiff.1 hik)]
      exact (h.frames hkl).insert x hv
    · rw [if_neg hik, if_neg fun hjl => hik (hiff.2 hjl)]
      exact h.frames hkl
  spare {l} hl := by
    rw [frame_write, if_neg]
    · exact h.spare hl
    · rintro ⟨rfl, -⟩
      exact hij.not_spare hl
  scope := h.scope
  scope' := h.scope'
  path := h.path

theorem define (h : e.Corresponds w σ τ e') (habreast : Abreast w σ τ) (x : String) {v v' : Value}
    (hv : v.Corresponds w v') : (e.define x v).Corresponds w σ τ (e'.define x v') := by
  obtain ⟨head⟩ := habreast
  rw [Environment.define, Environment.define, h.scope, h.scope']
  exact h.write head x hv

/-- Two new frames, which are paired. -/
theorem pushOn (h : e.Corresponds w σ τ e') (hpath : Along w ρ ρ') :
    (e.pushOn ρ).Corresponds (w ++ [some e.frames.size]) (e.frames.size :: ρ)
      (e'.frames.size :: ρ') (e'.pushOn ρ') where
  matching := by simpa [Environment.pushOn] using h.matching.pair
  frames {k l} hkl := by
    rw [frame_pushOn, frame_pushOn]
    rcases getElem?_concat_eq_some.1 hkl with hold | ⟨rfl, hnew⟩
    · exact (h.frames hold).mono (List.prefix_append _ _)
    · obtain rfl := Option.some.inj hnew
      rw [frame_size, h.matching.length, frame_size]
      exact .empty
  spare {l} hl := by
    rw [frame_pushOn]
    rcases getElem?_concat_eq_some.1 hl with hold | ⟨-, hnew⟩
    · exact h.spare hold
    · cases hnew
  scope := rfl
  scope' := rfl
  path := .pair h.matching.pairs_new (hpath.mono (List.prefix_append _ _))

/-- A new frame of the second environment only, which is a spare one. -/
theorem pushSpare (h : e.Corresponds w σ τ e') :
    e.Corresponds (w ++ [none]) σ (e'.frames.size :: τ) e'.push where
  matching := by simpa [Environment.push, Environment.pushOn] using h.matching.spare
  frames {k l} hkl := by
    rw [Environment.push, frame_pushOn]
    rcases getElem?_concat_eq_some.1 hkl with hold | ⟨-, hnew⟩
    · exact (h.frames hold).mono (List.prefix_append _ _)
    · cases hnew
  spare {l} hl := by
    rw [Environment.push, frame_pushOn]
    rcases getElem?_concat_eq_some.1 hl with hold | ⟨rfl, -⟩
    · exact h.spare hold
    · rw [h.matching.length, frame_size]
  scope := h.scope
  scope' := by rw [Environment.push, Environment.pushOn, h.scope']
  path := .spare h.matching.spare_new (h.path.mono (List.prefix_append _ _))

theorem enter (h : e.Corresponds w ρ ρ' e') (hpath : Along w σ τ) :
    (e.enter σ).Corresponds w σ τ (e'.enter τ) :=
  { h with scope := rfl, scope' := rfl, path := hpath }

/-- Functions are entered with corresponding arguments in new frames, which are paired. -/
theorem enterFunction (h : e.Corresponds w σ τ e') {f g : Function} (hfg : f.Corresponds w g)
    {vs vs' : List Value} (hvs : ValuesCorrespond w vs vs') :
    (f.enter vs e).Corresponds (w ++ [some e.frames.size]) (e.frames.size :: f.scope)
      (e'.frames.size :: g.scope) (g.enter vs' e') := by
  have hle : w <+: w ++ [some e.frames.size] := List.prefix_append _ _
  have habreast : Abreast (w ++ [some e.frames.size]) (e.frames.size :: f.scope)
      (e'.frames.size :: g.scope) := ⟨h.matching.pairs_new⟩
  -- each parameter is defined in the environment that the ones before it have left
  have define_all : ∀ (params : List String) {vs vs' : List Value} {d d' : Environment},
      ValuesCorrespond (w ++ [some e.frames.size]) vs vs' →
      d.Corresponds (w ++ [some e.frames.size]) (e.frames.size :: f.scope)
        (e'.frames.size :: g.scope) d' →
      ((params.zip vs).foldl (fun env e => env.define e.1 e.2) d).Corresponds
        (w ++ [some e.frames.size]) (e.frames.size :: f.scope) (e'.frames.size :: g.scope)
        ((params.zip vs').foldl (fun env e => env.define e.1 e.2) d') := by
    intro params
    induction params with
    | nil => exact fun _ hd => hd
    | cons x params ih =>
      intro vs vs' d d' hvs hd
      cases hvs with
      | nil => exact hd
      | cons hv hvs => exact ih hvs (hd.define habreast x hv)
  rw [Function.enter, Function.enter, ← hfg.params]
  exact define_all f.params (hvs.mono hle) (h.pushOn hfg.scope)

/-- Along frames that are paired with themselves, the same is shown. -/
theorem dump_eq (h : e.Corresponds w σ σ e') (hself : ∀ i ∈ σ, Pairs w i i) : e.dump = e'.dump := by
  have hfrom : ∀ (ρ : Scope) (index : Nat), (∀ i ∈ ρ, Pairs w i i) →
      e.dumpFrom index ρ = e'.dumpFrom index ρ := by
    intro ρ
    induction ρ with
    | nil => exact fun _ _ => rfl
    | cons i ρ ih =>
      intro index hρ
      rw [dumpFrom, dumpFrom, (h.frames (hρ i (.head _))).renderFrame_eq,
        ih (index + 1) fun k hk => hρ k (.tail _ hk)]
  rw [dump, dump, h.scope, h.scope']
  exact hfrom σ 0 hself

end Corresponds

end Environment

/-! ### States -/

/-- States with the scopes `σ` and `τ` that differ in spare frames, and in functions and programs by
braces, only. -/
structure State.Corresponds (w : Pairing) (σ τ : Scope) (s t : State) : Prop where
  env : s.env.Corresponds w σ τ t.env
  objectCount : s.objects.size = t.objects.size
  objects : ∀ i, (s.objects.getD i ∅).Corresponds w (t.objects.getD i ∅)
  nextId : s.nextId = t.nextId
  depth : s.depth = t.depth
  output : s.output = t.output
  clock : s.clock = t.clock

namespace State.Corresponds

variable {s t : State}

/-- Other environments and programs. The pairing may have grown. -/
theorem withEnv (h : s.Corresponds w σ τ t) (hle : w <+: w') {e e' : Environment}
    (he : e.Corresponds w' ρ ρ' e') :
    { s with env := e }.Corresponds w' ρ ρ' { t with env := e' } where
  env := he
  objectCount := h.objectCount
  objects i := (h.objects i).mono hle
  nextId := h.nextId
  depth := h.depth
  output := h.output
  clock := h.clock

/-- A field of an object gets corresponding values. -/
theorem writeField (h : s.Corresponds w σ τ t) (id : Nat) (name : String) {v v' : Value}
    (hv : v.Corresponds w v') :
    { s with objects := s.objects.modify id (·.insert name v) }.Corresponds w σ τ
      { t with objects := t.objects.modify id (·.insert name v') } :=
  { h with
    objectCount := by simpa using h.objectCount
    objects := fun i => by
      show ((s.objects.modify id _).getD i ∅).Corresponds w ((t.objects.modify id _).getD i ∅)
      rw [Bindings.getD_modify_insert, Bindings.getD_modify_insert, h.objectCount]
      split
      · exact (h.objects i).insert name hv
      · exact h.objects i }

/-- A new object on each side. -/
theorem newObject (h : s.Corresponds w σ τ t) :
    { s with objects := s.objects.push ∅ }.Corresponds w σ τ
      { t with objects := t.objects.push ∅ } :=
  { h with
    objectCount := by simp [h.objectCount]
    objects := fun i => by
      show ((s.objects.push ∅).getD i ∅).Corresponds w ((t.objects.push ∅).getD i ∅)
      rw [Bindings.getD_push_empty, Bindings.getD_push_empty]
      exact h.objects i }

end State.Corresponds

theorem Chain.lt_length {outer : List Scope} {path : Scope} (h : Chain outer path) :
    ∀ i ∈ path, i < outer.length := by
  induction h with
  | global h => exact List.forall_mem_singleton.2 (List.getElem?_eq_some_iff.1 h).1
  | inside hi _ _ ih => exact List.forall_mem_cons.2 ⟨(List.getElem?_eq_some_iff.1 hi).1, ih⟩

/-- A linked state corresponds to itself. -/
theorem State.Linked.corresponds {outer : List Scope} {s : State} (h : s.Linked outer) :
    s.Corresponds (.identity s.env.frames.size) s.env.scope s.env.scope s := by
  have hpath : ∀ {path : Scope}, Chain outer path →
      ∀ i ∈ path, Pairs (.identity s.env.frames.size) i i :=
    fun hchain i hi => pairs_identity.2 ⟨rfl, h.env.size ▸ hchain.lt_length i hi⟩
  have hvalue : ∀ v : Value, (v.Each fun f => Inner outer f.scope) →
      v.Corresponds (.identity s.env.frames.size) v := by
    intro v hv
    cases v with
    | function id f => exact .function ⟨rfl, rfl, .refl _, .of_pairs_self (hpath hv.chain)⟩
    | _ => exact .same trivial
  have hbindings : ∀ b : Bindings Value,
      (∀ name v, b.get? name = some v → v.Each fun f => Inner outer f.scope) →
      b.Corresponds (.identity s.env.frames.size) b := by
    intro b hb x
    cases hx : b.get? x with
    | none => exact .none
    | some v => exact .some (hvalue v (hb x v hx))
  refine ⟨⟨matching_identity _, fun {i j} hij => ?_, fun hj => absurd hj not_spare_identity, rfl,
    rfl, .of_pairs_self (hpath h.env.scope.chain)⟩, rfl, fun i => ?_, rfl, rfl, rfl, rfl⟩
  · obtain ⟨rfl, -⟩ := pairs_identity.1 hij
    exact hbindings _ (h.functions.frames i)
  · exact hbindings _ (h.functions.objects i)

end Lox
