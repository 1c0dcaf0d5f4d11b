import Lox.Proofs.Dumps
import Lox.Proofs.InternedTrees

/-!
# Interned states

A state over the numbers of a name table represents a state over the texts themselves: its frames
and objects have, under the numbers of the names, the values with the numbers of their names and
texts. So it does when the table grows, and it is dumped as the state is.

* `Interned.Bindings.Represents`, with `insert`, `mono` and `renderFrame_eq`;
* `Interned.AllRepresent`: the same for frames and objects;
* `Interned.Environment.Represents`, with a lemma for each operation;
* `Interned.State.Represents`, with `mono` for a table that has grown.
-/

namespace Lox.Interned

variable {t t' : NameTable}

/-! ### Bindings -/

namespace Bindings

/-- A number is bound if its text is, and to the same value. The table holds all that is bound. -/
structure Represents (t : NameTable) (d : Bindings) (b : Lox.Bindings Lox.Value) : Prop where
  held : ∀ x v, b.get? x = some v → x ∈ t.texts ∧ v.Held t
  bound : ∀ n : Name, d[n]? = t.texts[n]?.bind fun x => (b.get? x).map (Lox.Value.interned t)

namespace Represents

variable {d : Bindings} {b : Lox.Bindings Lox.Value} {x : String} {v : Lox.Value}

theorem empty : Represents t ∅ ∅ where
  held _ _ h := nomatch h
  bound n := by
    rw [Std.HashMap.getElem?_empty]
    cases t.texts[n]? <;> rfl

theorem getElem?_number (h : Represents t d b) (hx : x ∈ t.texts) :
    d[t.number x]? = (b.get? x).map (Lox.Value.interned t) := by
  rw [h.bound, NameTable.getElem?_number hx]
  rfl

theorem insert (h : Represents t d b) (hdistinct : t.Distinct) (hx : x ∈ t.texts)
    (hv : v.Held t) : Represents t (d.insert (t.number x) (v.interned t)) (b.insert x v) where
  held y w hw := by
    rw [Lox.Bindings.get?_insert] at hw
    split at hw
    · next hyx =>
      cases hw
      exact ⟨hyx ▸ hx, hv⟩
    · exact h.held y w hw
  bound n := by
    rw [Std.HashMap.getElem?_insert, h.bound]
    cases hn : t.texts[n]? with
    | none =>
      have hne : t.number x ≠ n := fun heq => by
        rw [← heq, NameTable.getElem?_number hx] at hn
        cases hn
      simp [hne]
    | some y =>
      -- one side compares numbers, the other one their texts
      have hiff : t.number x = n ↔ y = x := by
        rw [hdistinct.eq_iff (NameTable.getElem?_number hx) hn, eq_comm]
      by_cases hyx : y = x
      · simp [hiff.2 hyx, Lox.Bindings.get?_insert, hyx]
      · simp [mt hiff.1 hyx, Lox.Bindings.get?_insert, hyx]

/-- When the table grows, the new texts are bound nowhere. -/
theorem mono (h : Represents t d b) (hle : t'.Extends t) (hdistinct : t'.Distinct) :
    Represents t' d b where
  held x v hv := (h.held x v hv).imp hle.mem (·.mono hle)
  bound n := by
    have hstay (x : String) : (b.get? x).map (Lox.Value.interned t') =
        (b.get? x).map (Lox.Value.interned t) := by
      cases hv : b.get? x with
      | none => rfl
      | some v => exact congrArg some ((h.held x v hv).2.interned_eq hle hdistinct)
    rw [h.bound]
    cases hn : t.texts[n]? with
    | some x =>
      rw [hle.getElem?_texts hn]
      exact (hstay x).symm
    | none =>
      cases hn' : t'.texts[n]? with
      | none => rfl
      | some x =>
        have hnew : b.get? x = none := by
          by_contra hbound
          obtain ⟨v, hv⟩ := Option.ne_none_iff_exists'.1 hbound
          have hx := NameTable.getElem?_number (h.held x v hv).1
          rw [(hdistinct.eq_iff (hle.getElem?_texts hx) hn').2 rfl, hn] at hx
          cases hx
        rw [Option.bind_some, hnew]
        rfl

/-- What is kept are the values that are bound, under the numbers of their names. -/
theorem mem_toList_iff (h : Represents t d b) {n : Name} {w : Value} :
    (n, w) ∈ d.toList ↔
      ∃ x v, t.texts[n]? = some x ∧ b.get? x = some v ∧ w = v.interned t := by
  rw [Std.HashMap.mem_toList_iff_getElem?_eq_some, h.bound, Option.bind_eq_some_iff]
  constructor
  · rintro ⟨x, hx, hw⟩
    obtain ⟨v, hv, rfl⟩ := Option.map_eq_some_iff.1 hw
    exact ⟨x, v, hx, hv, rfl⟩
  · rintro ⟨x, v, hx, hv, rfl⟩
    exact ⟨x, hx, by rw [hv, Option.map_some]⟩

/-- Different numbers have different texts. -/
theorem nodup_names (h : Represents t d b) (hdistinct : t.Distinct) :
    (d.toList.map fun e => t.lookup e.1).Nodup := by
  refine List.pairwise_map.2 (Std.HashMap.distinct_keys_toList.imp_of_mem ?_)
  rintro ⟨m, w⟩ ⟨n, w'⟩ hm hn hne heq
  obtain ⟨x, -, hx, -⟩ := h.mem_toList_iff.1 hm
  obtain ⟨y, -, hy, -⟩ := h.mem_toList_iff.1 hn
  rw [NameTable.lookup_of_getElem? hx, NameTable.lookup_of_getElem? hy] at heq
  simp [(hdistinct.eq_iff hx hy).2 heq] at hne

/-- What is shown of a frame are the texts of its names and of their values. -/
theorem mem_shown_iff (h : Represents t d b) (e : String × String) :
    e ∈ d.toList.map (fun e => (t.lookup e.1, e.2.face.display)) ↔
      e ∈ b.entries.map fun e => (e.1, e.2.display) := by
  rw [List.mem_map, List.mem_map]
  constructor
  · rintro ⟨⟨n, w⟩, hn, rfl⟩
    obtain ⟨x, v, hx, hv, rfl⟩ := h.mem_toList_iff.1 hn
    refine ⟨(x, v), (b.lists_entries.mem_iff x v).2 hv, ?_⟩
    rw [NameTable.lookup_of_getElem? hx, Lox.Value.display_face_interned]
  · rintro ⟨⟨x, v⟩, hx, rfl⟩
    have hv := (b.lists_entries.mem_iff x v).1 hx
    have hnumber := NameTable.getElem?_number (h.held x v hv).1
    refine ⟨(t.number x, v.interned t), h.mem_toList_iff.2 ⟨x, v, hnumber, hv, rfl⟩, ?_⟩
    rw [NameTable.lookup_of_getElem? hnumber, Lox.Value.display_face_interned]

end Represents

end Bindings

/-- Entries with different names are strictly ascending once they are sorted. -/
theorem ascending_mergeSort {es : List (String × String)} (h : (es.map Prod.fst).Nodup) :
    (es.mergeSort fun a c => a.1 ≤ c.1).Pairwise fun a c => a.1 < c.1 := by
  have hsorted : (es.mergeSort fun a c => a.1 ≤ c.1).Pairwise fun a c => decide (a.1 ≤ c.1) :=
    List.pairwise_mergeSort
      (fun _ _ _ h h' => by simpa using String.le_trans (by simpa using h) (by simpa using h'))
      (fun a c => by simpa using String.le_total a.1 c.1) es
  have hnames : ((es.mergeSort fun a c => a.1 ≤ c.1).map Prod.fst).Nodup :=
    ((List.mergeSort_perm es _).map Prod.fst).nodup_iff.2 h
  refine (hsorted.and (List.pairwise_map.1 hnames)).imp fun ⟨hle, hne⟩ => ?_
  exact Lox.Bindings.lt_of_ne_of_not_lt (Ne.symm hne) (String.not_lt.2 (by simpa using hle))

/-- Sorted by their texts, the names of a frame are in the order of the bindings. -/
theorem Bindings.Represents.renderFrame_eq {d : Bindings} {b : Lox.Bindings Lox.Value}
    (h : Represents t d b) (hdistinct : t.Distinct) :
    Environment.renderFrame t d = Lox.Environment.renderFrame b := by
  let entries := d.toList.map fun e => (t.lookup e.1, e.2.face.display)
  let shown := b.entries.map fun e => (e.1, e.2.display)
  have hnames : (entries.map Prod.fst).Nodup := by
    rw [List.map_map]
    exact h.nodup_names hdistinct
  have hshown : shown.Pairwise fun a c => a.1 < c.1 := List.pairwise_map.2 b.sorted
  have hsorted : (entries.mergeSort fun a c => a.1 ≤ c.1) = shown :=
    Lox.Bindings.eq_of_mem_iff (ascending_mergeSort hnames) hshown fun e =>
      (List.mergeSort_perm entries _).mem_iff.trans (h.mem_shown_iff e)
  show ", ".intercalate ((entries.mergeSort fun a c => a.1 ≤ c.1).map fun e =>
    s!"{e.1} = {e.2}") = _
  rw [hsorted, List.map_map]
  rfl

/-! ### Frames and objects -/

/-- Frames represent frames, or objects represent objects, number by number. -/
structure AllRepresent (t : NameTable) (cs : Array Bindings)
    (bs : Array (Lox.Bindings Lox.Value)) : Prop where
  size : cs.size = bs.size
  get : ∀ i, Bindings.Represents t (cs.getD i ∅) (bs.getD i ∅)

namespace AllRepresent

variable {cs : Array Bindings} {bs : Array (Lox.Bindings Lox.Value)} {x : String} {v : Lox.Value}

theorem insert (h : AllRepresent t cs bs) (hdistinct : t.Distinct) (i : Nat) (hx : x ∈ t.texts)
    (hv : v.Held t) : AllRepresent t (cs.modify i (·.insert (t.number x) (v.interned t)))
      (bs.modify i (·.insert x v)) where
  size := by simpa using h.size
  get j := by
    rw [getD_modify, getD_modify, h.size]
    split
    · exact (h.get j).insert hdistinct hx hv
    · exact h.get j

theorem push (h : AllRepresent t cs bs) : AllRepresent t (cs.push ∅) (bs.push ∅) where
  size := by simp [h.size]
  get j := by
    rw [getD_push_self, getD_push_self]
    exact h.get j

theorem mono (h : AllRepresent t cs bs) (hle : t'.Extends t) (hdistinct : t'.Distinct) :
    AllRepresent t' cs bs :=
  ⟨h.size, fun i => (h.get i).mono hle hdistinct⟩

end AllRepresent

/-! ### Environments -/

namespace Environment

/-- The frames represent those of an environment, and the scope is the same. -/
structure Represents (t : NameTable) (e : Environment) (env : Lox.Environment) : Prop where
  frames : AllRepresent t e.frames env.frames
  scope : e.scope = env.scope

namespace Represents

variable {e : Environment} {env : Lox.Environment} {x : String} {v : Lox.Value}

theorem fresh : Represents t .fresh .fresh where
  frames := by
    have hempty : AllRepresent t #[] #[] := ⟨rfl, fun _ => .empty⟩
    exact hempty.push.push
  scope := rfl

theorem getElem?_number (h : Represents t e env) (hx : x ∈ t.texts) (i : Nat) :
    (e.frame i)[t.number x]? = ((env.frame i).get? x).map (Lox.Value.interned t) :=
  (h.frames.get i).getElem?_number hx

theorem owner?_eq (h : Represents t e env) (hx : x ∈ t.texts) (scope : Scope) :
    e.owner? scope (t.number x) = env.owner? scope x := by
  simp only [Environment.owner?, Lox.Environment.owner?, h.getElem?_number hx, Option.isSome_map]

theorem lookup_eq (h : Represents t e env) (hx : x ∈ t.texts) :
    e.lookup (t.number x) = (env.lookup x).map (Lox.Value.interned t) := by
  rw [Environment.lookup, Lox.Environment.lookup, Lox.Environment.lookupIn, h.scope,
    List.map_findSome?]
  simp only [h.getElem?_number hx]
  rfl

theorem held_lookup (h : Represents t e env) (hv : env.lookup x = some v) : v.Held t := by
  obtain ⟨i, -, hi⟩ := List.exists_of_findSome?_eq_some hv
  exact ((h.frames.get i).held x v hi).2

theorem write (h : Represents t e env) (hdistinct : t.Distinct) (i : Nat) (hx : x ∈ t.texts)
    (hv : v.Held t) :
    Represents t (e.write i (t.number x) (v.interned t)) (env.write i x v) :=
  ⟨h.frames.insert hdistinct i hx hv, h.scope⟩

theorem define (h : Represents t e env) (hdistinct : t.Distinct) (hx : x ∈ t.texts)
    (hv : v.Held t) : Represents t (e.define (t.number x) (v.interned t)) (env.define x v) := by
  rw [Environment.define, Lox.Environment.define, h.scope]
  cases env.scope with
  | nil => exact h
  | cons i outer => exact h.write hdistinct i hx hv

theorem enter (h : Represents t e env) (scope : Scope) :
    Represents t (e.enter scope) (env.enter scope) := ⟨h.frames, rfl⟩

theorem pushOn (h : Represents t e env) (scope : Scope) :
    Represents t (e.pushOn scope) (env.pushOn scope) :=
  ⟨h.frames.push, congrArg (· :: scope) h.frames.size⟩

theorem push (h : Represents t e env) : Represents t e.push env.push := by
  rw [Environment.push, Lox.Environment.push, h.scope]
  exact h.pushOn env.scope

/-- A call binds the numbers of the parameters. -/
theorem enterFunction (h : Represents t e env) (hdistinct : t.Distinct) {f : Lox.Function}
    (hf : f.Held t) {args : List Lox.Value} (hargs : ∀ v ∈ args, v.Held t) :
    Represents t ((f.interned t).enter (args.map (Lox.Value.interned t)) e)
      (f.enter args env) := by
  have hbind {params : List String} (hparams : ∀ x ∈ params, x ∈ t.texts)
      {args : List Lox.Value} (hargs : ∀ v ∈ args, v.Held t) {e : Environment}
      {env : Lox.Environment} (h : Represents t e env) :
      Represents t
        (((params.map t.number).zip (args.map (Lox.Value.interned t))).foldl
          (fun e b => e.define b.1 b.2) e)
        ((params.zip args).foldl (fun env b => env.define b.1 b.2) env) := by
    induction params generalizing args e env with
    | nil => exact h
    | cons x params ih =>
      cases args with
      | nil => exact h
      | cons v args =>
        obtain ⟨hx, hparams⟩ := List.forall_mem_cons.1 hparams
        obtain ⟨hv, hargs⟩ := List.forall_mem_cons.1 hargs
        exact ih hparams hargs (h.define hdistinct hx hv)
  exact hbind hf.params hargs (h.pushOn f.scope)

theorem mono (h : Represents t e env) (hle : t'.Extends t) (hdistinct : t'.Distinct) :
    Represents t' e env := ⟨h.frames.mono hle hdistinct, h.scope⟩

/-- The environment is dumped as the one that it represents. -/
theorem dump_eq (h : Represents t e env) (hdistinct : t.Distinct) : e.dump t = env.dump := by
  have hfrom (scope : Scope) (index : Nat) :
      dumpFrom t e index scope = env.dumpFrom index scope := by
    induction scope generalizing index with
    | nil => rfl
    | cons i outer ih =>
      have hframe := (h.frames.get i).renderFrame_eq hdistinct
      rw [dumpFrom, Lox.Environment.dumpFrom, ih, frame, Lox.Environment.frame, hframe]
  rw [dump, Lox.Environment.dump, h.scope, hfrom]

end Represents

end Environment

/-! ### States -/

namespace State

/-- A state with the name table `t` represents a state. -/
structure Represents (t : NameTable) (u : State) (s : Lox.State) : Prop where
  names : u.names = t
  distinct : t.Distinct
  env : u.env.Represents t s.env
  objects : AllRepresent t u.objects s.objects
  nextId : u.nextId = s.nextId
  depth : u.depth = s.depth
  output : u.output = s.output
  clock : u.clock = s.clock

namespace Represents

variable {u : State} {s : Lox.State}

theorem withEnv (h : Represents t u s) {e : Environment} {env : Lox.Environment}
    (he : e.Represents t env) : Represents t { u with env := e } { s with env } :=
  { h with env := he }

/-- No number is read in a program. -/
theorem withProgram (h : Represents t u s) (program : Program) :
    Represents t u { s with program } :=
  { h with }

/-- Names that are new to the table change nothing that is bound. -/
theorem mono (h : Represents t u s) (hle : t'.Extends t) (hdistinct : t'.Distinct) :
    Represents t' { u with names := t' } s :=
  { h with
    names := rfl
    distinct := hdistinct
    env := h.env.mono hle hdistinct
    objects := h.objects.mono hle hdistinct }

theorem dump_eq (h : Represents t u s) : u.dump = s.env.dump := by
  rw [State.dump, h.names, h.env.dump_eq h.distinct]

end Represents

end State

end Lox.Interned
