import Lox.Proofs.NumberedNames
import Lox.Proofs.ScopeGraph
import Lox.Proofs.UnmarkedState

/-!
# Dumps

A dump shows the frames of the current scope, the names of each in order, with what their values
look like. Nothing else matters to it: neither what was done before, nor how names are numbered, nor
in which order a frame keeps them.

* `shown`: the form of a dump;
* `Bindings.Lists`: the names of a frame in order, with their values;
* `Environment.Reachable`, `Environment.LooksLike`: environments that come up, and environments that
  show the same;
* `NumberedEnvironment.Dumps`: what an environment may be shown as that knows names by numbers;
* `dump_faithful`.
-/

namespace Lox

/-! ### The form of a dump -/

/-- Frames from the innermost one on, with a mark at the global frame, where the entries of each
frame are given. -/
def shown (entries : Nat → List (String × Value)) (path : Scope) : String :=
  .join <| path.mapIdx fun k i =>
    let sign := if i = globalFrame then " (global)" else ""
    let names := (entries i).map fun (name, value) => s!"{name} = {value.display}"
    s!"frame {k}{sign}: " ++ ", ".intercalate names ++ "\n"

theorem shown_congr {entries entries' : Nat → List (String × Value)} {path : Scope}
    (h : ∀ i ∈ path, entries i = entries' i) : shown entries path = shown entries' path := by
  refine congrArg _ (List.mapIdx_eq_mapIdx_iff.2 fun k hk => ?_)
  rw [h _ (List.getElem_mem hk)]

/-- Entries are the names of a frame with their values, in the order of the names. -/
structure Bindings.Lists (b : Bindings Value) (entries : List (String × Value)) : Prop where
  ascending : entries.Pairwise fun a b => a.1 < b.1
  mem_iff : ∀ x v, (x, v) ∈ entries ↔ b.get? x = some v

namespace Bindings

variable {α : Type}

theorem lookup_eq_some_iff_mem {es : List (String × α)} (h : es.Pairwise fun a b => a.1 < b.1)
    {x : String} {v : α} : es.lookup x = some v ↔ (x, v) ∈ es := by
  induction es with
  | nil => simp
  | cons e es ih =>
    obtain ⟨y, w⟩ := e
    obtain ⟨hy, hes⟩ := List.pairwise_cons.1 h
    rw [List.lookup_cons, List.mem_cons, Prod.mk.injEq, ← ih hes]
    by_cases hxy : x = y
    · subst hxy
      simp [lookup_eq_none_of_lt hy, eq_comm]
    · simp [beq_eq_false_iff_ne.2 hxy, hxy]

/-- Entries in the order of their names are told by what is among them. -/
theorem eq_of_mem_iff {es fs : List (String × α)} (hes : es.Pairwise fun a b => a.1 < b.1)
    (hfs : fs.Pairwise fun a b => a.1 < b.1) (h : ∀ e, e ∈ es ↔ e ∈ fs) : es = fs := by
  refine eq_of_lookup_eq hes hfs fun x => Option.ext fun v => ?_
  rw [lookup_eq_some_iff_mem hes, lookup_eq_some_iff_mem hfs, h]

/-- What is bound is listed. -/
theorem lists_entries (b : Bindings Value) : b.Lists b.entries :=
  ⟨b.sorted, fun _ _ => (lookup_eq_some_iff_mem b.sorted).symm⟩

/-- A frame is listed in one way only. -/
theorem Lists.eq_entries {b : Bindings Value} {entries : List (String × Value)}
    (h : b.Lists entries) : entries = b.entries :=
  eq_of_mem_iff h.ascending b.sorted fun e =>
    (h.mem_iff e.1 e.2).trans (b.lists_entries.mem_iff e.1 e.2).symm

end Bindings

namespace Environment

theorem dumpFrom_eq (env : Environment) (path : Scope) (index : Nat) :
    env.dumpFrom index path = .join (path.mapIdx fun k i =>
      let sign := if i = globalFrame then " (global)" else ""
      let names := (env.frame i).entries.map fun (name, value) => s!"{name} = {value.display}"
      s!"frame {index + k}{sign}: " ++ ", ".intercalate names ++ "\n") := by
  induction path generalizing index with
  | nil => rfl
  | cons i outer ih =>
    rw [dumpFrom, List.mapIdx_cons, String.join_cons, ih]
    simp only [Nat.add_assoc, Nat.add_comm 1]
    rfl

/-- A dump lists all that is bound in the frames of the scope. -/
theorem dump_eq_shown (env : Environment) :
    env.dump = shown (fun i => (env.frame i).entries) env.scope := by
  rw [dump, dumpFrom_eq]
  simp only [Nat.zero_add]
  rfl

/-! ### Environments that come up -/

/-- An environment after operations on a fresh one, or in a session, between runs or during one. -/
def Reachable (env : Environment) : Prop :=
  (∃ ops, env = (Handled.run ops).env) ∨ ∃ t : State, t.Reached ∧ env = t.env

variable {env env' : Environment}

/-- A scope leads to older frames only, and to the global frame at last. -/
theorem Reachable.descends (h : env.Reachable) :
    env.scope.Pairwise (· > ·) ∧ env.scope.getLast? = some globalFrame := by
  have inner {outer : List Scope} (h : Inner outer env.scope) :
      env.scope.Pairwise (· > ·) ∧ env.scope.getLast? = some globalFrame :=
    ⟨h.chain.pairwise, h.chain.getLast?⟩
  rcases h with ⟨ops, rfl⟩ | ⟨t, ⟨clock, s, hs, ht⟩, rfl⟩
  · have hl := Handled.Follows.run ops
    rw [hl.scope]
    exact (hl.founded.descends hl.founded.current).2
  · obtain ⟨outer, -, hlinked⟩ := hs.linked (Session.linked_start clock)
    rcases ht with rfl | ⟨source, task, ht⟩
    · exact inner hlinked.env.scope
    · obtain ⟨outer', -, ht', -⟩ := ht.linked hlinked
      exact inner ht'.env.scope

/-- A path that does not come back has the global frame at its end only. -/
theorem getElem?_eq_global_iff {path : Scope} (h : path.Pairwise (· > ·))
    (hlast : path.getLast? = some globalFrame) (k : Nat) :
    path[k]? = some globalFrame ↔ k + 1 = path.length := by
  rw [List.getLast?_eq_getElem?] at hlast
  have hlt : path.length - 1 < path.length := (List.getElem?_eq_some_iff.1 hlast).1
  have hnodup : path.Nodup := h.imp Nat.ne_of_gt
  rw [← hlast]
  constructor
  · intro hk
    have := (List.getElem?_inj hlt hnodup).1 hk.symm
    omega
  · intro hk
    rw [← hk, Nat.add_sub_cancel]

/-- Two scopes have equally many frames and the global frame at the same place, and frame by frame
they have the same names, with values that look the same. -/
structure LooksLike (env env' : Environment) : Prop where
  length : env.scope.length = env'.scope.length
  global : ∀ k : Nat, env.scope[k]? = some globalFrame ↔ env'.scope[k]? = some globalFrame
  frames : ∀ k i i' : Nat, env.scope[k]? = some i → env'.scope[k]? = some i' →
    ∀ x, ((env.frame i).get? x).map Value.display = ((env'.frame i').get? x).map Value.display

theorem LooksLike.dump_eq (h : env.LooksLike env') : env.dump = env'.dump := by
  rw [dump_eq_shown, dump_eq_shown, shown, shown]
  congr 1
  refine List.ext_getElem? fun k => ?_
  rw [List.getElem?_mapIdx, List.getElem?_mapIdx]
  by_cases hk : k < env.scope.length
  · have hk' : k < env'.scope.length := h.length ▸ hk
    have hi := List.getElem?_eq_getElem hk
    have hi' := List.getElem?_eq_getElem hk'
    have hglobal : env.scope[k] = globalFrame ↔ env'.scope[k] = globalFrame := by
      simpa [hi, hi'] using h.global k
    have hnames := renderFrame_congr (h.frames k _ _ hi hi')
    simp only [renderFrame] at hnames
    rw [hi, hi', Option.map_some, Option.map_some]
    simp only [hnames, hglobal]
  · rw [List.getElem?_eq_none (Nat.le_of_not_lt hk),
      List.getElem?_eq_none (h.length ▸ Nat.le_of_not_lt hk)]
    rfl

end Environment

/-! ### Dumps of numbered names -/

namespace NumberedEnvironment

/-- Entries are what a frame binds, once each, with the texts of the names, in an order of these
texts. A frame lists its numbers in any way, and nothing is said of names with equal texts. -/
def Arranges (e : NumberedEnvironment) (i : Nat) (entries : List (String × Value)) : Prop :=
  ∃ listing : List (Nat × Value), (listing.map Prod.fst).Nodup ∧
    (∀ n v, (n, v) ∈ listing ↔ e.bound i n = some v) ∧
    entries.Perm (listing.map fun b => (e.names.lookup b.1, b.2)) ∧
    entries.Pairwise fun a b => a.1 ≤ b.1

/-- A text shows the frames of the current path. -/
def Dumps (e : NumberedEnvironment) (text : String) : Prop :=
  ∃ entries, text = shown entries e.path ∧ ∀ i ∈ e.path, e.Arranges i (entries i)

namespace Follows

variable {e : NumberedEnvironment} {l : Ledger} {b : Bindings Value} {i n : Nat} {x : String}
  {v : Value}

theorem bound_eq_some_iff (h : e.Follows l) :
    e.bound i n = some v ↔ ∃ x, e.names.texts[n]? = some x ∧ l.value? i x = some v := by
  rw [h.bound, Option.bind_eq_some_iff]

/-- Every name that is bound has a number. -/
theorem exists_number (h : e.Follows l) (hx : l.value? i x = some v) :
    ∃ n : Nat, e.names.texts[n]? = some x :=
  Array.getElem?_of_mem (h.known i x (by rw [hx, Option.isSome_some]))

/-- An arrangement of a frame lists its names: there are no names with equal texts. -/
theorem lists (h : e.Follows l) (hb : ∀ x, b.get? x = l.value? i x)
    {entries : List (String × Value)} (ha : e.Arranges i entries) : b.Lists entries := by
  obtain ⟨listing, hnodup, hmem, hperm, hle⟩ := ha
  have htext {n : Nat} {v : Value} (hn : (n, v) ∈ listing) :
      e.names.texts[n]? = some (e.names.lookup n) ∧ b.get? (e.names.lookup n) = some v := by
    obtain ⟨x, hx, hv⟩ := h.bound_eq_some_iff.1 ((hmem n v).1 hn)
    rw [NameTable.lookup_of_getElem? hx, hb]
    exact ⟨hx, hv⟩
  -- different numbers have different texts, so no two entries could change places
  have hnames : (entries.map Prod.fst).Nodup := by
    rw [(hperm.map Prod.fst).nodup_iff, List.map_map]
    show (listing.map (e.names.lookup ∘ Prod.fst)).Nodup
    rw [← List.map_map]
    refine hnodup.map_on fun m hm n hn heq => ?_
    obtain ⟨a, ha, rfl⟩ := List.mem_map.1 hm
    obtain ⟨c, hc, rfl⟩ := List.mem_map.1 hn
    exact (h.distinct.eq_iff (htext ha).1 (htext hc).1).2 heq
  refine ⟨(hle.and (List.pairwise_map.1 hnames)).imp fun hlt =>
    Bindings.lt_of_ne_of_not_lt (Ne.symm hlt.2) (String.not_lt.2 hlt.1), fun x v => ?_⟩
  rw [hperm.mem_iff, List.mem_map]
  constructor
  · rintro ⟨⟨n, w⟩, hn, heq⟩
    obtain ⟨rfl, rfl⟩ := Prod.mk.inj heq
    exact (htext hn).2
  · intro hv
    rw [hb] at hv
    obtain ⟨n, hn⟩ := h.exists_number hv
    exact ⟨(n, v), (hmem n v).2 (h.bound_eq_some_iff.2 ⟨x, hn, hv⟩),
      by rw [NameTable.lookup_of_getElem? hn]⟩

/-- The names of a frame can be arranged. -/
theorem arranges (h : e.Follows l) (hb : ∀ x, b.get? x = l.value? i x) :
    e.Arranges i b.entries := by
  have hnumber {x : String} {v : Value} (hx : (x, v) ∈ b.entries) :
      e.names.texts[(e.names.intern x).1]? = some x := by
    have hv := (b.lists_entries.mem_iff x v).1 hx
    have hknown : x ∈ e.names.texts := h.known i x (by rw [← hb, hv, Option.isSome_some])
    exact NameTable.getElem?_number hknown
  refine ⟨b.entries.map fun a => ((e.names.intern a.1).1, a.2), ?_, fun n v => ?_, ?_,
    b.sorted.imp fun hlt => String.not_lt.1 (String.lt_asymm hlt)⟩
  · rw [List.map_map]
    have hne : b.entries.Pairwise fun a c => a.1 ≠ c.1 :=
      b.sorted.imp fun hlt => String.ne_of_lt hlt
    refine List.pairwise_map.2 (hne.imp_of_mem fun ha hc hne heq => hne ?_)
    exact (h.distinct.eq_iff (hnumber ha) (hnumber hc)).1 heq
  · rw [h.bound_eq_some_iff, List.mem_map]
    constructor
    · rintro ⟨⟨x, w⟩, hx, heq⟩
      obtain ⟨rfl, rfl⟩ := Prod.mk.inj heq
      exact ⟨x, hnumber hx, by rw [← hb, (b.lists_entries.mem_iff x w).1 hx]⟩
    · rintro ⟨x, hn, hv⟩
      have hx : (x, v) ∈ b.entries := (b.lists_entries.mem_iff x v).2 (by rw [hb, hv])
      exact ⟨(x, v), hx, by rw [(h.distinct.eq_iff (hnumber hx) hn).2 rfl]⟩
  · rw [List.map_map]
    refine .of_eq ((List.map_id _).symm.trans (List.map_congr_left fun a ha => ?_))
    exact Prod.ext (NameTable.lookup_of_getElem? (hnumber ha)).symm rfl

end Follows

/-- A fresh environment, and one that knows the names, show the same after the same operations. -/
theorem dumps_run_iff {names : NameTable} (h : names.Distinct) (ops : List Operation)
    (text : String) : (run names ops).Dumps text ↔ text = (Handled.run ops).env.dump := by
  have he := Follows.run h ops
  have hl := Handled.Follows.run ops
  rw [Environment.dump_eq_shown, hl.scope, ← he.path_eq]
  constructor
  · rintro ⟨entries, rfl, hentries⟩
    exact shown_congr fun i hi => (he.lists (hl.values i) (hentries i hi)).eq_entries
  · rintro rfl
    exact ⟨_, rfl, fun i _ => he.arranges (hl.values i)⟩

end NumberedEnvironment

/-! ### The law -/

/-- **A dump shows what the scope binds, and nothing else.** For every environment that comes up, it
has a section for each frame of the scope from the innermost one on, numbered from zero, with a mark
at the last one, which is the global frame, and at no other. A section lists all names of its frame
once, in order, with what their values look like. So environments that look alike have one dump. An
environment that knows names by numbers only can be shown in one way, which depends neither on the
numbers nor on how its frames keep them. Two of them that look alike have one dump too, whatever was
done to each. -/
theorem dump_faithful :
    (∀ env : Environment, env.Reachable →
      (∃ entries, env.dump = shown entries env.scope ∧
        ∀ i ∈ env.scope, (env.frame i).Lists (entries i)) ∧
      env.scope.Nodup ∧
      ∀ k : Nat, env.scope[k]? = some globalFrame ↔ k + 1 = env.scope.length) ∧
    (∀ env env' : Environment, env.LooksLike env' → env.dump = env'.dump) ∧
    (∀ (names : NameTable) (ops : List Operation) (text : String), names.Distinct →
      ((NumberedEnvironment.run names ops).Dumps text ↔ text = (Handled.run ops).env.dump)) ∧
    ∀ (names names' : NameTable) (ops ops' : List Operation) (text text' : String),
      names.Distinct → names'.Distinct →
      (Handled.run ops).env.LooksLike (Handled.run ops').env →
      (NumberedEnvironment.run names ops).Dumps text →
      (NumberedEnvironment.run names' ops').Dumps text' → text = text' := by
  refine ⟨fun env henv => ?_, fun env env' h => h.dump_eq,
    fun names ops text h => NumberedEnvironment.dumps_run_iff h ops text,
    fun names names' ops ops' text text' h h' hlike htext htext' => ?_⟩
  · obtain ⟨hdescends, hlast⟩ := henv.descends
    exact ⟨⟨_, env.dump_eq_shown, fun i _ => Bindings.lists_entries _⟩,
      hdescends.imp Nat.ne_of_gt, Environment.getElem?_eq_global_iff hdescends hlast⟩
  · rw [(NumberedEnvironment.dumps_run_iff h ops text).1 htext,
      (NumberedEnvironment.dumps_run_iff h' ops' text').1 htext', hlike.dump_eq]

/-- Two names in a block, one of them with a value that is replaced. -/
def settled : List Operation :=
  [.push, .define "b" (.int 1), .define "a" .nil, .assign "b" (.bool true)]

/-- The same names in another order, in a frame of another number. -/
def resettled : List Operation :=
  [.enterChild 1, .enterChild 1, .define "a" (.str "nil"), .define "b" (.str "true")]

theorem looksLike_settled : (Handled.run settled).env.LooksLike (Handled.run resettled).env := by
  have hframe : ((Handled.run settled).env.frame 2).entries.map (fun e => (e.1, e.2.display)) =
      ((Handled.run resettled).env.frame 3).entries.map fun e => (e.1, e.2.display) := by
    decide +kernel
  refine ⟨rfl, fun k => ?_, fun k i i' hi hi' x => ?_⟩
  · cases k with
    | zero => exact ⟨nofun, nofun⟩
    | succ k => exact Iff.rfl
  · rw [← Bindings.get?_map, ← Bindings.get?_map]
    match k with
    | 0 =>
      cases hi
      cases hi'
      exact congrArg (List.lookup x) hframe
    | 1 | 2 =>
      cases hi
      cases hi'
      rfl
    | k + 3 => cases hi

/-- The two are shown alike, also where the names have other numbers. -/
theorem dump_faithful_settled :
    (Handled.run settled).env.dump = "frame 0: a = nil, b = true\nframe 1: \nframe 2 (global): \n" ∧
    (Handled.run resettled).env.dump = (Handled.run settled).env.dump ∧
    (∀ k : Nat, (Handled.run settled).env.scope[k]? = some globalFrame ↔ k + 1 = 3) ∧
    ∀ text text', (NumberedEnvironment.run .fresh settled).Dumps text →
      (NumberedEnvironment.run (NameTable.fresh.insert "n") resettled).Dumps text' →
      text = text' := by
  obtain ⟨hshown, hlike, -, htexts⟩ := dump_faithful
  refine ⟨by decide +kernel, (hlike _ _ looksLike_settled).symm, ?_, fun text text' => ?_⟩
  · exact (hshown _ (.inl ⟨settled, rfl⟩)).2.2
  · exact htexts _ _ _ _ _ _ (by decide +kernel) (by decide +kernel) looksLike_settled

end Lox
