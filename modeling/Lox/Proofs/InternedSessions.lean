import Lox.Proofs.History
import Lox.Proofs.InternedRuns

/-!
# Interned sessions

A session over interned names shows what the session over the names themselves shows. Both read the
same statements, and the table of the one is that of the other. So sources show the same after a
source that has changed nothing but the table.

* `Interned.State.Plays`, `Interned.Outcome.shown`: sources that are run one after the other, and
  what the user of a session sees of them;
* `Interned.State.Represents.read`, `Interned.State.Represents.run`: one source;
* `Interned.State.Represents.plays`, `Interned.State.Represents.exists_plays`: sources one after the
  other;
* `Interned.State.Reaches.exists_represents`, `Interned.State.plays_start_iff`;
* `Interned.rejected_traceless`.
-/

namespace Lox.Interned

variable {t : NameTable} {u : State} {s : Session}

/-! ### What is seen of a session -/

/-- The outcomes of sources that are run one after the other, and the state after them. -/
inductive State.Plays : State → List Input → List Outcome → State → Prop
  | nil {u : State} : Plays u [] [] u
  | cons {u v : State} {clock : Clock} {source : String} {o : Outcome} {inputs : List Input}
      {os : List Outcome} (ends : (u.setClock clock).Ends source o)
      (tail : Plays o.state inputs os v) : Plays u (⟨clock, source⟩ :: inputs) (o :: os) v

/-- What the user of a session sees of an outcome: the output, the problem that is reported, and the
dump. -/
def Outcome.shown (o : Outcome) : String × Option Problem × String :=
  (o.printed, o.problem, o.state.dump)

/-- The same outcome, with a state that represents the state after it. -/
structure Outcome.Represents (o : Outcome) (o' : Lox.Outcome) : Prop where
  printed : o.printed = o'.printed
  problem : o.problem = o'.problem
  state : o.state.Represents o'.session.names o'.session.state

theorem Outcome.Represents.shown_eq {o : Outcome} {o' : Lox.Outcome} (h : o.Represents o') :
    o.shown = o'.shown := by
  rw [shown, Lox.Outcome.shown, h.printed, h.problem, h.state.dump_eq, Session.env]

namespace State

/-! ### The first state -/

theorem represents_empty (clock : Clock) :
    (empty clock).Represents .fresh (Lox.State.empty clock) where
  names := rfl
  distinct := NameTable.distinct_fresh
  env := .fresh
  objects := ⟨rfl, fun _ => .empty⟩
  nextId := rfl
  depth := rfl
  output := rfl
  clock := rfl

namespace Represents

/-- A native function has the number that its name gets in the table. -/
theorem addNative {s : Lox.State} (h : u.Represents t s) (f : Native) :
    (u.addNative f).Represents (t.insert f.name) (s.addNative f) := by
  obtain rfl := h.names
  let names := u.names.insert f.name
  let n := (u.names.intern f.name).1
  let value := Lox.Value.native s.nextId f
  let text := names.lookup n
  have hdistinct : names.Distinct := h.distinct.insert f.name
  have hnames := h.mono (u.names.extends_insert f.name) hdistinct
  have htext : names.texts[n]? = some f.name := u.names.getElem?_insert_intern f.name
  have hvalue : value.interned names = .data (.native u.nextId { f with name := text }) := by
    simp only [text, NameTable.lookup_of_getElem? htext, h.nextId]
    rfl
  have hwrite := hnames.env.write hdistinct globalFrame (u.names.mem_insert f.name)
    (v := value) trivial
  rw [hdistinct.number_eq htext, hvalue] at hwrite
  exact { hnames.withEnv hwrite with nextId := congrArg (· + 1) h.nextId }

theorem foldl_addNative {s : Lox.State} (h : u.Represents t s) (fs : List Native) :
    (fs.foldl State.addNative u).Represents (fs.foldl (fun names f => names.insert f.name) t)
      (fs.foldl Lox.State.addNative s) := by
  induction fs generalizing t u s with
  | nil => exact h
  | cons f fs ih => exact ih (h.addNative f)

end Represents

theorem represents_start (clock : Clock) :
    (start clock).Represents (Session.start clock).names (Session.start clock).state :=
  (represents_empty clock).foldl_addNative builtins

/-! ### One source -/

section OptionRel

variable {α β : Type} {R : α → β → Prop} {x : Option α} {y : Option β}

theorem exists_right_of_rel (h : Option.Rel R x y) {a : α} (ha : x = some a) :
    ∃ b, y = some b ∧ R a b := by
  subst ha
  cases h with
  | some hab => exact ⟨_, rfl, hab⟩

theorem exists_left_of_rel (h : Option.Rel R x y) {b : β} (hb : y = some b) :
    ∃ a, x = some a ∧ R a b := by
  subst hb
  cases h with
  | some hab => exact ⟨_, rfl, hab⟩

end OptionRel

namespace Represents

theorem setClock (h : u.Represents s.names s.state) (clock : Clock) :
    (u.setClock clock).Represents (s.setClock clock).names (s.setClock clock).state :=
  { h with clock := rfl }

/-- The statements of a source get the numbers of the table after it. -/
theorem read (h : u.Represents s.names s.state) (source : String) :
    (u.read source).1 =
        (s.read source).1.map (fun p => internedAll (s.read source).2.names p.statements) ∧
      (u.read source).2.Represents (s.read source).2.names (s.read source).2.state := by
  cases hlex : lex source with
  | error e =>
    rw [State.read, Session.read, hlex]
    exact ⟨rfl, h⟩
  | ok tokens =>
    have hgrown := grown_parse s.names tokens
    rw [State.read, Session.read_of_lex hlex, hlex, h.names]
    exact ⟨rfl, h.mono hgrown.toExtends (h.distinct.grown hgrown)⟩

theorem settle {s : Lox.State} (h : u.Represents t s) (problem : Option Problem) :
    (settle problem u).Represents (Session.settle t problem s) :=
  ⟨h.output, rfl, { h with output := rfl }⟩

/-- With the same fuel, the statements of a program have the same outcome, or none. -/
theorem runProgram (h : u.Represents s.names s.state) (fuel : Nat) {program : Program}
    (hheld : s.names.HoldsAll (nodesAll program.statements)) :
    Option.Rel Outcome.Represents
      (u.runProgram fuel (internedAll s.names program.statements))
      (s.runProgram fuel program) := by
  have hstart : State.Represents s.names { u with output := "" }
      { s.state with output := "", program } := { h with output := rfl }
  have hrun := (runStatements_represents fuel hheld _ _ hstart).run fuel
  rw [State.runProgram, Session.runProgram, Lox.Action.run]
  rcases hx : (runStatements fuel _ { u with output := "" }).run fuel with ⟨r, v⟩
  rcases hy : (Lox.runStatements fuel _ { s.state with output := "", program }).run fuel with
    ⟨r', s'⟩
  rw [hx, hy] at hrun
  obtain ⟨hend, hstate⟩ := hrun
  cases hend with
  | ok => exact .some (hstate.settle none)
  | error e =>
    cases e with
    | error e => exact .some (hstate.settle _)
    | outOfFuel => exact .none

/-- With the same fuel, a source has the same outcome, or none. -/
theorem run (h : u.Represents s.names s.state) (fuel : Nat) (source : String) :
    Option.Rel Outcome.Represents (u.run fuel source) (s.run fuel source) := by
  obtain ⟨hread, hstate⟩ := h.read source
  cases hs : (s.read source).1 with
  | error p =>
    rw [hs] at hread
    rw [run_of_read_eq_error hread, Session.run_of_read_eq_error hs]
    exact .some ⟨rfl, rfl, hstate⟩
  | ok program =>
    rw [hs] at hread
    rw [run_of_read_eq_ok hread, Session.run_of_read_eq_ok hs]
    exact hstate.runProgram fuel (Session.mem_texts_of_read hs)

theorem ends (h : u.Represents s.names s.state) {source : String} {o : Outcome}
    (ho : u.Ends source o) : ∃ o', s.Ends source o' ∧ o.Represents o' := by
  obtain ⟨fuel, ho⟩ := ho
  obtain ⟨o', ho', hsame⟩ := exists_right_of_rel (h.run fuel source) ho
  exact ⟨o', ⟨fuel, ho'⟩, hsame⟩

theorem exists_ends (h : u.Represents s.names s.state) {source : String} {o' : Lox.Outcome}
    (ho' : s.Ends source o') : ∃ o, u.Ends source o ∧ o.Represents o' := by
  obtain ⟨fuel, ho'⟩ := ho'
  obtain ⟨o, ho, hsame⟩ := exists_left_of_rel (h.run fuel source) ho'
  exact ⟨o, ⟨fuel, ho⟩, hsame⟩

/-! ### Sources one after the other -/

theorem plays (h : u.Represents s.names s.state) {inputs : List Input} {os : List Outcome}
    {v : State} (hplays : u.Plays inputs os v) :
    ∃ os' s', s.Plays inputs os' s' ∧ os.map Outcome.shown = os'.map Lox.Outcome.shown := by
  induction hplays generalizing s with
  | nil => exact ⟨[], s, .nil, rfl⟩
  | @cons u v clock source o inputs os ends tail ih =>
    obtain ⟨o', ends', ho⟩ := (h.setClock clock).ends ends
    obtain ⟨os', s', tail', hshown⟩ := ih ho.state
    exact ⟨o' :: os', s', .cons ends' tail', by simp [ho.shown_eq, hshown]⟩

theorem exists_plays (h : u.Represents s.names s.state) {inputs : List Input}
    {os' : List Lox.Outcome} {s' : Session} (hplays : s.Plays inputs os' s') :
    ∃ os v, u.Plays inputs os v ∧ os.map Outcome.shown = os'.map Lox.Outcome.shown := by
  induction hplays generalizing u with
  | nil => exact ⟨[], u, .nil, rfl⟩
  | @cons s s' clock source o' inputs os' ends' tail' ih =>
    obtain ⟨o, ends, ho⟩ := (h.setClock clock).exists_ends ends'
    obtain ⟨os, v, tail, hshown⟩ := ih ho.state
    exact ⟨o :: os, v, .cons ends tail, by simp [ho.shown_eq, hshown]⟩

/-- What sources can show with the numbers is what they can show with the names. -/
theorem plays_iff (h : u.Represents s.names s.state) (inputs : List Input)
    (shown : List (String × Option Problem × String)) :
    (∃ os v, u.Plays inputs os v ∧ os.map Outcome.shown = shown) ↔
      ∃ os s', s.Plays inputs os s' ∧ os.map Lox.Outcome.shown = shown := by
  constructor
  · rintro ⟨os, v, hplays, rfl⟩
    obtain ⟨os', s', hplays', hshown⟩ := h.plays hplays
    exact ⟨os', s', hplays', hshown.symm⟩
  · rintro ⟨os', s', hplays', rfl⟩
    exact h.exists_plays hplays'

end Represents

/-- A state after sources represents the session after these sources. -/
theorem Reaches.exists_represents {clock : Clock} (h : (start clock).Reaches u) :
    ∃ s, (Session.start clock).Reaches s ∧ u.Represents s.names s.state := by
  induction h with
  | refl => exact ⟨_, .refl, represents_start clock⟩
  | setClock _ clock ih =>
    obtain ⟨s, hs, hrep⟩ := ih
    exact ⟨_, hs.setClock clock, hrep.setClock clock⟩
  | run _ ends ih =>
    obtain ⟨s, hs, hrep⟩ := ih
    obtain ⟨o', ends', ho⟩ := hrep.ends ends
    exact ⟨_, hs.run ends', ho.state⟩

/-- **Numbers stand for names.** The outputs, problems and dumps that sources can show one after the
other in a session over interned names are those of the session over the names. -/
theorem plays_start_iff (clock : Clock) (inputs : List Input)
    (shown : List (String × Option Problem × String)) :
    (∃ os v, (start clock).Plays inputs os v ∧ os.map Outcome.shown = shown) ↔
      ∃ os s, (Session.start clock).Plays inputs os s ∧ os.map Lox.Outcome.shown = shown :=
  (represents_start clock).plays_iff inputs shown

/-! ### Sources that are no programs -/

/-- A source that is no program ends in the state in which it has been read. -/
theorem ends_iff_of_read_eq_error {source : String} {p : Problem} {o : Outcome}
    (h : (u.read source).1 = .error p) :
    u.Ends source o ↔ o = ⟨"", some p, (u.read source).2⟩ := by
  constructor
  · rintro ⟨fuel, hrun⟩
    rw [run_of_read_eq_error h] at hrun
    exact (Option.some.inj hrun).symm
  · rintro rfl
    exact ⟨0, run_of_read_eq_error h⟩

end State

/-- **A source that is no program leaves no trace.** In every state after sources, a source that
cannot be read ends with that problem, without output and with the dump as it was. Whatever sources
follow at whatever times, the outputs, problems and dumps that they can show after it are exactly
those that they can show without it, although names that are new may have joined the table, and all
later names have other numbers in trees, frames and objects. -/
theorem rejected_traceless {clock : Clock} (hu : (State.start clock).Reaches u) {source : String}
    {p : Problem} (h : (u.read source).1 = .error p) :
    ∃ o, u.Ends source o ∧ (∀ o', u.Ends source o' → o' = o) ∧
      o.shown = ("", some p, u.dump) ∧ o.state.names.Extends u.names ∧
      ∀ (inputs : List Input) (shown : List (String × Option Problem × String)),
        (∃ os v, o.state.Plays inputs os v ∧ os.map Outcome.shown = shown) ↔
          ∃ os v, u.Plays inputs os v ∧ os.map Outcome.shown = shown := by
  obtain ⟨s, -, hs⟩ := hu.exists_represents
  obtain ⟨-, hread⟩ := hs.read source
  have hstate : (s.read source).2.state = s.state := s.state_read source
  refine ⟨_, (State.ends_iff_of_read_eq_error h).2 rfl,
    fun o' => (State.ends_iff_of_read_eq_error h).1, ?_, ?_, fun inputs shown => ?_⟩
  · rw [Outcome.shown, hread.dump_eq, hs.dump_eq, hstate]
  · rw [hread.names, hs.names]
    exact s.extends_read source
  · -- both states stand for sessions that differ in their tables only
    rw [hread.plays_iff, hs.plays_iff]
    constructor
    · rintro ⟨os, s', hplays, rfl⟩
      exact hplays.congr hstate
    · rintro ⟨os, s', hplays, rfl⟩
      exact hplays.congr hstate.symm

/-- Two new names and a missing value. -/
def halfSource : String := "fun half(whole) \x7b return whole / ; \x7d"

/-- After a source that is no program, the names of later sources have other numbers, and that is
all. -/
theorem rejected_traceless_halfSource : ∃ o p, (State.start 0).Ends halfSource o ∧
    (State.start 0).names.number "other" = 17 ∧ o.state.names.number "other" = 19 ∧
    o.shown = ("", some p, (State.start 0).dump) ∧
    ∀ (inputs : List Input) (shown : List (String × Option Problem × String)),
      (∃ os v, o.state.Plays inputs os v ∧ os.map Outcome.shown = shown) ↔
        ∃ os v, (State.start 0).Plays inputs os v ∧ os.map Outcome.shown = shown := by
  have hread : ((State.start 0).read halfSource).1.isOk = false := by decide +kernel
  have hnumber : ((State.start 0).read halfSource).2.names.number "other" = 19 := by
    decide +kernel
  cases h : ((State.start 0).read halfSource).1 with
  | ok program =>
    rw [h] at hread
    cases hread
  | error p =>
    obtain ⟨o, ends, -, hshown, -, hplays⟩ := rejected_traceless .refl h
    refine ⟨o, p, ends, by decide +kernel, ?_, hshown, hplays⟩
    rw [(State.ends_iff_of_read_eq_error h).1 ends]
    exact hnumber

end Lox.Interned
