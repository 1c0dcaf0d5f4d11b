import Lox.Proofs.Interning
import Lox.Proofs.ParserTracing
import Lox.Session

/-!
# Sources one after another

What the sources of a session show depends on the state that they start in, and not on the name
table, whose numbers stand for the same names ever after. A source that is no program changes only
this table.

* `Input`, `Session.Plays`: sources that are run one after the other, with their outcomes;
* `Outcome.Agree`: outcomes that differ in their name tables only;
* `Session.read_congr`, `Session.run_congr`, `Session.Plays.congr`: readings, and runs from the same
  state;
* `Session.Plays.extends`, `Session.Plays.lookup_intern`: the numbers of names stay.
-/

namespace Lox

/-- A source and the clock that it looks at when it is run. -/
structure Input where
  clock : Clock
  source : String

/-- The outcomes of sources that are run one after the other, and the session after them. -/
inductive Session.Plays : Session → List Input → List Outcome → Session → Prop
  | nil {s : Session} : Plays s [] [] s
  | cons {s t : Session} {clock : Clock} {source : String} {o : Outcome} {inputs : List Input}
      {os : List Outcome} (ends : (s.setClock clock).Ends source o)
      (tail : Plays o.session inputs os t) : Plays s (⟨clock, source⟩ :: inputs) (o :: os) t

/-- What the user of a session sees of an outcome: the output, the problem that is reported, and the
dump. -/
def Outcome.shown (o : Outcome) : String × Option Problem × String :=
  (o.printed, o.problem, o.session.env.dump)

/-- Two outcomes that differ in their name tables only. -/
structure Outcome.Agree (o o' : Outcome) : Prop where
  printed : o.printed = o'.printed
  problem : o.problem = o'.problem
  state : o.session.state = o'.session.state

theorem Outcome.Agree.shown {o o' : Outcome} (h : o.Agree o') : o.shown = o'.shown := by
  rw [Outcome.shown, Outcome.shown, h.printed, h.problem, Session.env, Session.env, h.state]

namespace Session

/-- What is read from a source depends on the source alone. -/
theorem read_congr (s s' : Session) (source : String) :
    (s.read source).1 = (s'.read source).1 := by
  cases hlex : lex source with
  | error e => rw [read, read, hlex]
  | ok tokens => rw [read_of_lex hlex, read_of_lex hlex, parse_names s.names s'.names tokens]

/-- Runs of a program from the same state agree. -/
theorem runProgram_congr {s : Session} (s' : Session) (h : s.state = s'.state) {fuel : Nat}
    {program : Program} {o : Outcome} (ho : s.runProgram fuel program = some o) :
    ∃ o', s'.runProgram fuel program = some o' ∧ o.Agree o' := by
  obtain ⟨r, t, hrun, hr, rfl⟩ := runProgram_eq_some_iff.1 ho
  rw [h] at hrun
  exact ⟨_, runProgram_eq_some_iff.2 ⟨r, t, hrun, hr, rfl⟩, rfl, rfl, rfl⟩

/-- Runs of a source from the same state agree. -/
theorem run_congr {s : Session} (s' : Session) (h : s.state = s'.state) {fuel : Nat}
    {source : String} {o : Outcome} (ho : s.run fuel source = some o) :
    ∃ o', s'.run fuel source = some o' ∧ o.Agree o' := by
  rcases run_eq_some_iff.1 ho with ⟨p, hp, rfl⟩ | ⟨program, hp, ho⟩
  · rw [read_congr s s'] at hp
    exact ⟨_, run_eq_some_iff.2 (.inl ⟨p, hp, rfl⟩), rfl, rfl, by simpa [reject]⟩
  · obtain ⟨o', ho', hagree⟩ := runProgram_congr (s'.read source).2 (by simpa) ho
    rw [read_congr s s'] at hp
    exact ⟨o', run_eq_some_iff.2 (.inr ⟨program, hp, ho'⟩), hagree⟩

/-- What sources show that are run from one state, they show from every session in that state. -/
theorem Plays.congr {s s' t : Session} (h : s.state = s'.state) {inputs : List Input}
    {os : List Outcome} (hplays : s.Plays inputs os t) :
    ∃ os' t', s'.Plays inputs os' t' ∧ os'.map Outcome.shown = os.map Outcome.shown := by
  -- the two sessions go on as different ones, and only their states stay equal
  induction hplays generalizing s' with
  | nil => exact ⟨[], s', .nil, rfl⟩
  | @cons s t clock source o inputs os ends tail ih =>
    obtain ⟨fuel, hrun⟩ := ends
    obtain ⟨o', hrun', hagree⟩ := run_congr (s'.setClock clock) (by simp [setClock, h]) hrun
    obtain ⟨os', t', htail, hshown⟩ := ih hagree.state
    exact ⟨o' :: os', t', .cons ⟨fuel, hrun'⟩ htail, by simp [hagree.shown, hshown]⟩

/-! ### Numbers of names -/

theorem extends_read (s : Session) (source : String) :
    (s.read source).2.names.Extends s.names := by
  cases hlex : lex source with
  | error e =>
    rw [read, hlex]
    exact .refl _
  | ok tokens =>
    rw [read_of_lex hlex]
    exact extends_parse s.names tokens

/-- When a program has been read, the table holds the names and string texts of its nodes. -/
theorem mem_texts_of_read {s : Session} {source : String} {program : Program}
    (h : (s.read source).1 = .ok program) :
    ∀ n ∈ program.nodes, ∀ x ∈ n.texts, x ∈ (s.read source).2.names.texts := by
  obtain ⟨tokens, hlex, hparse⟩ := read_eq_ok_iff.1 h
  rw [read_of_lex hlex]
  exact mem_texts_of_parse hparse

/-- Names join the table while a source is read, and not while it runs. -/
theorem names_run {s : Session} {fuel : Nat} {source : String} {o : Outcome}
    (h : s.run fuel source = some o) : o.session.names = (s.read source).2.names := by
  rcases run_eq_some_iff.1 h with ⟨p, -, rfl⟩ | ⟨program, -, h⟩
  · rfl
  · obtain ⟨r, t, -, -, rfl⟩ := runProgram_eq_some_iff.1 h
    rfl

theorem Plays.extends {s t : Session} {inputs : List Input} {os : List Outcome}
    (h : s.Plays inputs os t) : t.names.Extends s.names := by
  induction h with
  | nil => exact .refl _
  | @cons s t clock source o inputs os ends tail ih =>
    obtain ⟨fuel, hrun⟩ := ends
    rw [names_run hrun] at ih
    exact ih.trans ((s.setClock clock).extends_read source)

/-- The number that a name of a program gets stands for that name, whatever sources follow. -/
theorem Plays.lookup_intern {s t : Session} {source : String} {program : Program}
    {inputs : List Input} {os : List Outcome} (hread : (s.read source).1 = .ok program)
    (h : (s.read source).2.Plays inputs os t) : ∀ n ∈ program.nodes, ∀ x ∈ n.texts,
      t.names.lookup ((s.read source).2.names.intern x).1 = x :=
  fun n hn x hx => h.extends.lookup_intern (mem_texts_of_read hread n hn x hx)

/-! ### Sources that are no programs -/

/-- A source that is no program ends, and leaves the state as it is. -/
theorem ends_iff_of_read_eq_error {s : Session} {source : String} {p : Problem} {o : Outcome}
    (h : (s.read source).1 = .error p) :
    s.Ends source o ↔ o = (s.read source).2.reject p := by
  constructor
  · rintro ⟨fuel, hrun⟩
    rw [run_of_read_eq_error h] at hrun
    exact (Option.some.inj hrun).symm
  · rintro rfl
    exact ⟨0, run_of_read_eq_error h⟩

end Session

end Lox
