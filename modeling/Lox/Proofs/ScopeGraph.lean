import Lox.Proofs.ExecutionPoints
import Lox.Proofs.Restoration

/-!
# The graph of scopes

A frame is made inside another one and stays there. So the frames around a frame never change, they
are older than it, and the last of them is the global frame. Programs run inside of that frame,
which keeps the names that it has.

* `Chain`: a path of frames to the global frame;
* `State.Linked`: a state all of whose paths are such chains;
* `linking`: code keeps the links of a state, and adds those of new frames;
* `Stmt.Ends.defines`: declarations give names values in the innermost frame;
* `scopes_linked`.
-/

namespace Lox

/-! ### Chains of frames -/

/-- A path along `outer`, which gives for a frame the path of the frames around it. It leads from
every frame to an older one, and to the global frame at last. -/
inductive Chain (outer : List Scope) : Scope → Prop
  | global (h : outer[globalFrame]? = some []) : Chain outer [globalFrame]
  | inside {i j : Nat} {rest : Scope} (hi : outer[i]? = some (j :: rest)) (hlt : j < i)
    (h : Chain outer (j :: rest)) : Chain outer (i :: j :: rest)

theorem getElem?_of_isPrefix {α : Type} {l l' : List α} (h : l <+: l') {i : Nat} {a : α}
    (hi : l[i]? = some a) : l'[i]? = some a := by
  obtain ⟨rest, rfl⟩ := h
  rwa [List.getElem?_append_left (List.getElem?_eq_some_iff.1 hi).1]

namespace Chain

variable {outer outer' : List Scope} {path rest : Scope} {i : Nat}

theorem mono (h : Chain outer path) (hle : outer <+: outer') : Chain outer' path := by
  induction h with
  | global h => exact .global (getElem?_of_isPrefix hle h)
  | inside hi hlt _ ih => exact .inside (getElem?_of_isPrefix hle hi) hlt ih

theorem outer_eq (h : Chain outer (i :: rest)) : outer[i]? = some rest := by
  cases h with
  | global h => exact h
  | inside hi => exact hi

/-- No path comes back to a frame. -/
theorem pairwise (h : Chain outer path) : path.Pairwise (· > ·) := by
  induction h with
  | global => simp
  | @inside i j rest _ hlt _ ih =>
    refine List.pairwise_cons.2 ⟨fun k hk => ?_, ih⟩
    rcases List.mem_cons.1 hk with rfl | hk
    · exact hlt
    · exact Nat.lt_trans (List.rel_of_pairwise_cons ih hk) hlt

theorem outer_global (h : Chain outer path) : outer[globalFrame]? = some [] := by
  induction h with
  | global h => exact h
  | inside _ _ _ ih => exact ih

theorem getLast? (h : Chain outer path) : path.getLast? = some globalFrame := by
  induction h with
  | global => rfl
  | inside _ _ _ ih => rwa [List.getLast?_cons_cons]

end Chain

/-- A path to the global frame that starts with another frame. -/
structure Inner (outer : List Scope) (path : Scope) : Prop where
  chain : Chain outer path
  head : path.head? ≠ some globalFrame

theorem Inner.mono {outer outer' : List Scope} {path : Scope} (h : Inner outer path)
    (hle : outer <+: outer') : Inner outer' path :=
  ⟨h.chain.mono hle, h.head⟩

/-! ### Linked states -/

/-- The frames around every frame of an environment. Its current scope is a path inside the global
frame, in which there are the names of the built-in functions. -/
structure Environment.Linked (outer : List Scope) (env : Environment) : Prop where
  size : outer.length = env.frames.size
  chains : ∀ i rest, outer[i]? = some rest → Chain outer (i :: rest)
  scope : Inner outer env.scope
  names : ∀ x, ((env.frame globalFrame).get? x).isSome ↔ ∃ f ∈ builtins, f.name = x

/-- The frames around every frame of a state. The functions that it holds were made inside the
global frame. -/
structure State.Linked (outer : List Scope) (s : State) : Prop where
  env : s.env.Linked outer
  functions : s.Each fun f => Inner outer f.scope

namespace Environment

variable {outer : List Scope} {env : Environment}

theorem Linked.write (h : env.Linked outer) {i : Nat} {name : String} (value : Value)
    (hi : env.scope.head? = some i ∨ ((env.frame i).get? name).isSome) :
    (env.write i name value).Linked outer where
  size := by simpa [Environment.write] using h.size
  chains := h.chains
  scope := h.scope
  names x := by
    rw [Environment.frame, Environment.write, Bindings.getD_modify_insert]
    split
    · next hglobal =>
      obtain ⟨rfl, -⟩ := hglobal
      have hname : ((env.frame globalFrame).get? name).isSome :=
        hi.resolve_left h.scope.head
      rw [Bindings.get?_insert]
      split
      · next hx => exact hx ▸ ⟨fun _ => (h.names name).1 hname, fun _ => rfl⟩
      · exact h.names x
    · exact h.names x

/-- A new frame is inside the path that it is made on, and around no other frame. -/
theorem Linked.pushOn (h : env.Linked outer) {scope : Scope} (hscope : Inner outer scope) :
    (env.pushOn scope).Linked (outer ++ [scope]) := by
  have hle : outer <+: outer ++ [scope] := List.prefix_append _ _
  have hnew : (outer ++ [scope])[outer.length]? = some scope := by simp
  have hchain : Chain (outer ++ [scope]) (outer.length :: scope) := by
    have hold := hscope.chain
    cases scope with
    | nil => cases hold
    | cons j rest =>
      exact .inside hnew (List.getElem?_eq_some_iff.1 hold.outer_eq).1 (hold.mono hle)
  have hpos : globalFrame < outer.length :=
    (List.getElem?_eq_some_iff.1 hscope.chain.outer_global).1
  refine ⟨by simp [Environment.pushOn, h.size], fun i rest hi => ?_, ⟨?_, ?_⟩, fun x => ?_⟩
  · rcases Nat.lt_or_ge i outer.length with hlt | hge
    · rw [List.getElem?_append_left hlt] at hi
      exact (h.chains i rest hi).mono hle
    · rw [List.getElem?_append_right hge] at hi
      obtain ⟨hi, hrest⟩ := List.getElem?_eq_some_iff.1 hi
      obtain rfl : i = outer.length := by
        rw [List.length_singleton] at hi
        omega
      simp only [Nat.sub_self, List.getElem_cons_zero] at hrest
      exact hrest ▸ hchain
  · show Chain _ (env.frames.size :: scope)
    rwa [← h.size]
  · show some env.frames.size ≠ some globalFrame
    rw [← h.size]
    exact fun heq => Nat.ne_of_gt hpos (Option.some.inj heq)
  · rw [Environment.frame, Environment.pushOn, Bindings.getD_push_empty]
    exact h.names x

end Environment

/-- Code keeps the links of a state, and adds those of new frames. -/
def linking : Invariant where
  World := List Scope
  Grows outer outer' := outer <+: outer'
  Ok outer f := Inner outer f.scope
  Fits outer env _ := env.Linked outer
  Made _ := True
  Says _ := True
  Fails _ := True
  grows_refl := List.prefix_refl
  grows_trans := List.IsPrefix.trans
  ok_mono hle hf := hf.mono hle
  ok_made h hscope _ := hscope ▸ h.scope
  made_body _ n _ := ⟨n.makes_of_forall (fun _ => trivial) _, n.spells_of_forall fun _ => trivial⟩
  says_short _ := trivial
  fits_write value h hi := h.write value hi
  exists_push h := ⟨_, List.prefix_append _ _, h.pushOn h.scope⟩
  exists_pushOn h hf := ⟨_, List.prefix_append _ _, h.pushOn hf⟩
  fits_back h hle h' := ⟨h'.size, h'.chains, h.scope.mono hle, h'.names⟩
  fails _ := trivial
  fails_break _ _ := trivial

theorem linking_at_iff {outer : List Scope} {s : State} :
    linking.At outer s ↔ s.Linked outer :=
  ⟨fun h => ⟨h.fits, h.each⟩, fun h => .of_each h.functions (fun _ => trivial) h.env⟩

/-- A value may be any text. -/
theorem linking_good {outer : List Scope} {v : Value} (h : v.Each fun f => Inner outer f.scope) :
    linking.Good outer v :=
  ⟨h, v.spells_of_forall fun _ => trivial⟩

/-- Code may have any nodes. -/
theorem linking_allows (p : Program) (n : Node) : linking.Allows p n :=
  Invariant.allows_of_makes (n.makes_of_forall (fun _ => trivial) p) fun _ => trivial

/-! ### Declarations -/

/-- The name that a statement declares. -/
def Stmt.declared? : Stmt → Option String
  | varDecl _ x _ | funDecl _ x _ _ | classDecl _ x => some x
  | _ => none

/-- A name that gets a value after an action that leaves the scope as it was. -/
theorem defines_of_run {make : Action Value} (hmake : make.Restores) {x : String} {fuel : Nat}
    {s t : State} {flow : Flow}
    (h : (make >>= fun v => defineName x v >>= fun _ => pure .next).run fuel s = (.ok flow, t)) :
    ∃ (v : Value) (u : State),
      u.env.scope = s.env.scope ∧ t = { u with env := u.env.define x v } := by
  rw [Action.run_bind] at h
  cases hrun : make.run fuel s with
  | mk r u =>
    rw [hrun] at h
    cases r with
    | error e => cases h
    | ok v =>
      have hplace : u.place = s.place := hmake.run hrun (by simp)
      refine ⟨v, u, congrArg Place.scope hplace, ?_⟩
      cases h
      rfl

/-- A declaration gives its name a value in the innermost frame. -/
theorem Stmt.Ends.defines {stmt : Stmt} {x : String} (hx : stmt.declared? = some x) {s t : State}
    {flow : Flow} (h : stmt.Ends s (.ok flow) t) :
    ∃ (v : Value) (u : State),
      u.env.scope = s.env.scope ∧ t = { u with env := u.env.define x v } := by
  obtain ⟨-, fuel, hrun⟩ := h
  cases stmt with
  | varDecl m y e =>
    cases hx
    rw [exec] at hrun
    exact defines_of_run (evalOption_restores e) hrun
  | funDecl m y params body =>
    cases hx
    rw [exec] at hrun
    exact defines_of_run (newFunction_restores _ _ _) hrun
  | classDecl m y =>
    cases hx
    rw [exec] at hrun
    exact defines_of_run (newClass_restores _) hrun
  | _ => cases hx

/-- Statements at the top are run in the scope in which the run starts. -/
theorem Task.Visits.scope_top {ss rest : List Stmt} {s t : State}
    (h : (Task.top ss).Visits s (.top rest) t) : t.env.scope = s.env.scope := by
  -- only from the top does a run come to the top again
  generalize htask : Task.top rest = task at h
  induction h generalizing rest with
  | here => rfl
  | step _ hstep ih =>
    subst htask
    cases hstep with
    | nextTopStatement hends =>
      obtain ⟨hr, fuel, hrun⟩ := hends
      exact (congrArg Place.scope ((exec_restores fuel _).run hrun hr)).trans (ih rfl)

/-! ### Sessions -/

theorem Session.linked_start (clock : Clock) : (start clock).state.Linked [[], [globalFrame]] := by
  have hglobal : Chain [[], [globalFrame]] [globalFrame] := .global rfl
  have htop : Chain [[], [globalFrame]] [1, globalFrame] := .inside rfl (by decide) hglobal
  have hinner : Inner [[], [globalFrame]] [1, globalFrame] := ⟨htop, by decide⟩
  refine ⟨⟨rfl, fun i rest hi => ?_, hinner, fun x => ?_⟩, State.each_start clock⟩
  · match i with
    | 0 => cases hi; exact hglobal
    | 1 => cases hi; exact htop
    | i + 2 => cases hi
  · have hframe : (start clock).state.env.frame globalFrame =
        ((∅ : Bindings Value).insert "clock" (.native 0 ⟨"clock", 0, .clock⟩)).insert "sqrt"
          (.native 1 ⟨"sqrt", 1, .sqrt⟩) := rfl
    rw [hframe, Bindings.get?_insert, Bindings.get?_insert]
    by_cases hs : x = "sqrt"
    · simp [hs, builtins]
    · by_cases hc : x = "clock"
      · simp [hc, builtins]
      · simp [hs, hc, builtins, eq_comm]

namespace Session

variable {s : Session} {outer : List Scope}

theorem linked_begin (hs : s.state.Linked outer) (program : Program) :
    linking.At outer { s.state with output := "", program } :=
  linking_at_iff.2 ⟨hs.env, ⟨hs.functions.frames, hs.functions.objects⟩⟩

theorem Ends.linked {source : String} {o : Outcome} (hs : s.state.Linked outer)
    (h : s.Ends source o) : ∃ outer', outer <+: outer' ∧ o.session.state.Linked outer' := by
  obtain ⟨fuel, hrun⟩ := h
  rcases run_eq_some_iff.1 hrun with ⟨p, -, rfl⟩ | ⟨program, -, hrun⟩
  · exact ⟨outer, List.prefix_refl outer, by rwa [reject, state_read]⟩
  · rw [← state_read s source] at hs
    obtain ⟨outer', hle, ho, -⟩ := Invariant.runProgram (linked_begin hs program)
      (fun n _ => linking_allows program n) (fun _ => trivial) (fun _ => trivial) hrun
    exact ⟨outer', hle, linking_at_iff.1 ho⟩

theorem Reaches.linked {later : Session} (h : s.Reaches later) (hs : s.state.Linked outer) :
    ∃ outer', outer <+: outer' ∧ later.state.Linked outer' := by
  induction h with
  | refl => exact ⟨outer, List.prefix_refl outer, hs⟩
  | setClock _ clock ih =>
    obtain ⟨outer', hle, hlater⟩ := ih
    exact ⟨outer', hle, hlater.env, ⟨hlater.functions.frames, hlater.functions.objects⟩⟩
  | run _ ends ih =>
    obtain ⟨outer', hle, hlater⟩ := ih
    obtain ⟨outer'', hle', ho⟩ := ends.linked hlater
    exact ⟨outer'', hle.trans hle', ho⟩

end Session

/-- A function that is called, and the arguments, were made inside the global frame. -/
def Task.Linked (outer : List Scope) : Task → Prop
  | call f args => Inner outer f.scope ∧ ∀ v ∈ args, v.Each fun g => Inner outer g.scope
  | _ => True

namespace Session

variable {s : Session} {outer : List Scope}

/-- At every point of a run, the state is linked. -/
theorem Visits.linked {source : String} {task : Task} {t : State} (hs : s.state.Linked outer)
    (h : s.Visits source task t) :
    ∃ outer', outer <+: outer' ∧ t.Linked outer' ∧ task.Linked outer' := by
  obtain ⟨program, -, h⟩ := h
  obtain ⟨outer', hle, ht, htask⟩ := Invariant.visits h (linked_begin hs program)
    fun n _ => linking_allows program n
  refine ⟨outer', hle, linking_at_iff.1 ht, ?_⟩
  cases task with
  | call f args => exact ⟨htask.1, fun v hv => (htask.2 v hv).each⟩
  | _ => trivial

end Session

/-- **Scopes form a tree that only grows.** In every session after any number of sources, failed or
not, the frames around each frame are given once and for all: in every later session, and at every
point of the run of a source, there are the same frames around the frames that there were, and more
for those made since. They lead to older frames only, and at last to the global frame. The current
scope and the scopes of all functions that are kept, called, passed or returned are such paths, none
of which starts with the global frame. That frame has the names of the built-in functions at all
times, and a declaration at the top gives its name a value in the frame next to it. -/
theorem scopes_linked {clock : Clock} {s : Session} (hs : (Session.start clock).Reaches s) :
    ∃ outer : List Scope, s.state.Linked outer ∧ s.env.scope = [1, globalFrame] ∧
      (∀ i rest, outer[i]? = some rest →
        (i :: rest).Pairwise (· > ·) ∧ (i :: rest).getLast? = some globalFrame) ∧
      (∀ later, s.Reaches later → ∃ outer', outer <+: outer' ∧ later.state.Linked outer') ∧
      (∀ source task t, s.Visits source task t →
        ∃ outer', outer <+: outer' ∧ t.Linked outer' ∧ task.Linked outer' ∧
          (∀ task' t', task.Visits t task' t' → ∃ outer'', outer' <+: outer'' ∧ t'.Linked outer'') ∧
          (∀ (e : Expr) (v : Value) (u : State), task = .node (.expr e) → e.Ends t (.ok v) u →
            ∃ outer'', outer' <+: outer'' ∧ u.Linked outer'' ∧
              v.Each fun f => Inner outer'' f.scope)) ∧
      (∀ source stmt rest t, s.Visits source (.top (stmt :: rest)) t →
        t.env.scope = [1, globalFrame] ∧
          ∀ (x : String) (flow : Flow) (u : State), stmt.declared? = some x →
            stmt.Ends t (.ok flow) u → ∃ (v : Value) (u' : State),
              u'.env.scope = [1, globalFrame] ∧ u = { u' with env := u'.env.write 1 x v }) := by
  obtain ⟨outer, -, hlinked⟩ := hs.linked (Session.linked_start clock)
  have hscope : s.env.scope = [1, globalFrame] := hs.scope_depth.1
  refine ⟨outer, hlinked, hscope, fun i rest hi => ?_, fun later h => h.linked hlinked,
    fun source task t h => ?_, fun source stmt rest t h => ?_⟩
  · have hchain : Chain outer (i :: rest) := hlinked.env.chains i rest hi
    exact ⟨hchain.pairwise, hchain.getLast?⟩
  · obtain ⟨outer', hle, ht, htask⟩ := h.linked hlinked
    have hcovers (p : Program) : linking.Covers outer' p task := by
      cases task with
      | call f args =>
        exact ⟨htask.1, fun v hv => linking_good (htask.2 v hv)⟩
      | _ => exact fun n _ => linking_allows p n
    refine ⟨outer', hle, ht, htask, fun task' t' h' => ?_, fun e v u _ h' => ?_⟩
    · obtain ⟨outer'', hle', ht', -⟩ := Invariant.visits h' (linking_at_iff.2 ht) (hcovers _)
      exact ⟨outer'', hle', linking_at_iff.1 ht'⟩
    · obtain ⟨outer'', hle', hu, -, hv⟩ := Invariant.ends_expr (linking_at_iff.2 ht)
        (fun n _ => linking_allows _ n) h'
      exact ⟨outer'', hle', linking_at_iff.1 hu, hv.each⟩
  · obtain ⟨program, -, h⟩ := h
    have ht : t.env.scope = [1, globalFrame] := h.scope_top.trans hscope
    refine ⟨ht, fun x flow u hx h' => ?_⟩
    obtain ⟨v, u', hu', rfl⟩ := h'.defines hx
    rw [ht] at hu'
    refine ⟨v, u', hu', ?_⟩
    rw [Environment.define, hu']

/-- A function that keeps a frame of a call, a built-in name with a new value, and a failure. -/
def counterSource : String :=
  "fun make() { var n = 0; fun inc() { n = n + 1; return n; } return inc; } " ++
    "var c = make(); clock = c(); c(nil);"

/-- The function keeps its frame inside that of the call that made it, also after the failure. -/
theorem scopes_linked_counter : ∃ (o : Outcome) (outer : List Scope),
    (Session.start 0).Ends counterSource o ∧ o.problem.isSome ∧
    o.session.env.dump = "frame 0: c = <fn inc>, make = <fn make>\n" ++
      "frame 1 (global): clock = 1, sqrt = <native fn sqrt>\n" ∧
    o.session.state.Linked outer ∧ o.session.env.scope = [1, globalFrame] ∧
    (∀ later, o.session.Reaches later →
      ∃ outer', outer <+: outer' ∧ later.state.Linked outer') := by
  have hrun : ((Session.start 0).run 9 counterSource).map
      (fun o => (o.problem.isSome, o.session.env.dump)) =
        some (true, "frame 0: c = <fn inc>, make = <fn make>\n" ++
          "frame 1 (global): clock = 1, sqrt = <native fn sqrt>\n") := by
    decide +kernel
  obtain ⟨o, ho, hshown⟩ := Option.map_eq_some_iff.1 hrun
  obtain ⟨hproblem, hdump⟩ := Prod.mk.inj hshown
  obtain ⟨outer, hlinked, hscope, -, hlater, -⟩ := scopes_linked (.run .refl ⟨9, ho⟩)
  exact ⟨o, outer, ⟨9, ho⟩, hproblem, hdump, hlinked, hscope, hlater⟩

end Lox
