import Lox.Proofs.History
import Lox.Proofs.PairedRuns

/-!
# Braces are transparent

A program does the same with braces around statements that declare nothing in the frame in which
they are run, and so do all sources after it, although the functions that are left may have been
made in frames that only one of the two sessions has.

* `Problem.unplaced`, `Outcome.gist`: what is shown, but for the text that a fault is blamed on;
* `Session.Corresponds`: sessions whose states correspond, with the same frames at the top;
* `Session.Corresponds.runProgram`, `Session.Corresponds.run`: programs with braces, and sources;
* `Session.Peers.plays`: sources one after the other;
* `braces_transparent`.
-/

namespace Lox

/-! ### What is shown -/

/-- A problem of a run without the text that it is blamed on, or any other problem. -/
def Problem.unplaced : Problem → Problem
  | running e => running ⟨e.fault, none⟩
  | p => p

/-- What the user of a session sees of an outcome, but for the text that a fault of the program is
blamed on: the output, the problem, and the dump. -/
def Outcome.gist (o : Outcome) : String × Option Problem × String :=
  (o.printed, o.problem.map Problem.unplaced, o.session.env.dump)

/-- Runs that end with corresponding results come to an end, with problems that differ in what they
are blamed on. -/
theorem ResultLike.problem {R : Unit → Unit → Prop} {r r' : Except Stop Unit}
    (h : ResultLike R r r') : r ≠ .error .outOfFuel ∧ r' ≠ .error .outOfFuel ∧
      (Session.problem? r).map Problem.unplaced = (Session.problem? r').map Problem.unplaced := by
  cases h with
  | ok => exact ⟨nofun, nofun, rfl⟩
  | error h => simp [Session.problem?, Problem.unplaced, h]

/-! ### Sessions -/

/-- The frames of the scope in which programs start, innermost first. -/
def topScope : Scope := [1, globalFrame]

/-- Two sessions between sources whose states correspond, with the same frames at the top. -/
structure Session.Corresponds (w : Pairing) (s t : Session) : Prop where
  states : s.state.Corresponds w topScope topScope t.state
  top : ∀ i ∈ topScope, Pairs w i i

/-- Two outcomes that show the same, with sessions that correspond. -/
structure Outcome.Corresponds (o o' : Outcome) : Prop where
  gist : o.gist = o'.gist
  sessions : ∃ w, o.session.Corresponds w o'.session

namespace Session

variable {w : Pairing} {s t : Session}

theorem Corresponds.dump_eq (h : s.Corresponds w t) : s.env.dump = t.env.dump :=
  h.states.env.dump_eq h.top

/-- Every session that is reached corresponds to itself. -/
theorem Reaches.corresponds {clock : Clock} (hs : (start clock).Reaches s) :
    ∃ w, s.Corresponds w s := by
  obtain ⟨outer, -, hlinked⟩ := hs.linked (linked_start clock)
  have hscope : s.state.env.scope = topScope := hs.scope_depth.1
  have hself := hlinked.corresponds
  have hlt := hlinked.env.scope.chain.lt_length
  rw [hscope] at hself hlt
  rw [hlinked.env.size] at hlt
  exact ⟨_, hself, fun i hi => pairs_identity.2 ⟨rfl, hlt i hi⟩⟩

theorem runProgram_eq_none {fuel : Nat} {program : Program}
    (h : ((runStatements fuel program.statements).run fuel
      { s.state with output := "", program }).1 = .error .outOfFuel) :
    s.runProgram fuel program = none := by
  refine Option.eq_none_iff_forall_ne_some.2 fun o ho => ?_
  obtain ⟨r, u, hrun, hr, -⟩ := runProgram_eq_some_iff.1 ho
  rw [hrun] at h
  exact hr h

/-- The outcomes of runs that end in states that correspond. -/
theorem settle_corresponds {names names' : NameTable} {problem problem' : Option Problem}
    (h : problem.map Problem.unplaced = problem'.map Problem.unplaced) {u u' : State}
    (hu : u.Corresponds w topScope topScope u') (htop : ∀ i ∈ topScope, Pairs w i i) :
    (settle names problem u).Corresponds (settle names' problem' u') := by
  have hsessions : (settle names problem u).session.Corresponds w
      (settle names' problem' u').session := ⟨{ hu with output := rfl }, htop⟩
  exact ⟨Prod.ext hu.output (Prod.ext h hsessions.dump_eq), w, hsessions⟩

/-- A program does in one session what it does with more braces in the other one. -/
theorem Corresponds.runProgram (h : s.Corresponds w t) {p p' : Program}
    (hp : AllBraced p.statements p'.statements) (fuel : Nat) :
    Option.Rel Outcome.Corresponds (s.runProgram fuel p) (t.runProgram fuel p') := by
  have hstates : State.Corresponds w topScope topScope { s.state with output := "", program := p }
      { t.state with output := "", program := p' } := { h.states with output := rfl }
  have habreast : Abreast w topScope topScope := ⟨h.top _ (.head _)⟩
  rcases (hp.runStatements_corresponds fuel habreast w _ _ (List.prefix_refl w) hstates).run fuel
    with ⟨hfuel, hfuel'⟩ | ⟨w', hle, hresult, hu⟩
  · rw [runProgram_eq_none hfuel, runProgram_eq_none hfuel']
    exact .none
  · obtain ⟨hr, hr', hproblem⟩ := hresult.problem
    rw [runProgram_eq_some_iff.2 ⟨_, _, rfl, hr, rfl⟩,
      runProgram_eq_some_iff.2 ⟨_, _, rfl, hr', rfl⟩]
    exact .some (settle_corresponds hproblem hu fun i hi => (h.top i hi).mono hle)

/-- A source does the same in two sessions that correspond. -/
theorem Corresponds.run (h : s.Corresponds w t) (fuel : Nat) (source : String) :
    Option.Rel Outcome.Corresponds (s.run fuel source) (t.run fuel source) := by
  have hread : (s.read source).2.Corresponds w (t.read source).2 :=
    ⟨by rw [state_read, state_read]; exact h.states, h.top⟩
  cases hs : (s.read source).1 with
  | error p =>
    have ht : (t.read source).1 = .error p := (read_congr s t source).symm.trans hs
    rw [run_of_read_eq_error hs, run_of_read_eq_error ht]
    exact .some ⟨Prod.ext rfl (Prod.ext rfl hread.dump_eq), w, hread⟩
  | ok p =>
    have ht : (t.read source).1 = .ok p := (read_congr s t source).symm.trans hs
    rw [run_of_read_eq_ok hs, run_of_read_eq_ok ht]
    exact hread.runProgram (.refl _) fuel

/-- Two sessions of which one corresponds to the other one. -/
def Peers (s t : Session) : Prop := ∃ w, s.Corresponds w t ∨ t.Corresponds w s

theorem Peers.symm (h : s.Peers t) : t.Peers s := h.imp fun _ => Or.symm

theorem Peers.setClock (h : s.Peers t) (clock : Clock) :
    (s.setClock clock).Peers (t.setClock clock) := by
  obtain ⟨w, h | h⟩ := h
  · exact ⟨w, .inl ⟨{ h.states with clock := rfl }, h.top⟩⟩
  · exact ⟨w, .inr ⟨{ h.states with clock := rfl }, h.top⟩⟩

/-- What ends in one of two peers ends in the other one, and shows the same. -/
theorem Peers.of_rel {a b : Option Outcome} (h : Option.Rel Outcome.Corresponds a b) :
    (∀ o, a = some o → ∃ o', b = some o' ∧ o'.gist = o.gist ∧ o.session.Peers o'.session) ∧
      ∀ o', b = some o' → ∃ o, a = some o ∧ o.gist = o'.gist ∧ o'.session.Peers o.session := by
  rcases optionRel_cases h with ⟨rfl, rfl⟩ | ⟨o, o', rfl, rfl, hsame⟩
  · simp
  · have hpeers : o.session.Peers o'.session := hsame.sessions.imp fun _ => .inl
    constructor
    · rintro _ ⟨⟩
      exact ⟨o', rfl, hsame.gist.symm, hpeers⟩
    · rintro _ ⟨⟩
      exact ⟨o, rfl, hsame.gist, hpeers.symm⟩

theorem Peers.run (h : s.Peers t) {fuel : Nat} {source : String} {o : Outcome}
    (ho : s.run fuel source = some o) :
    ∃ o', t.run fuel source = some o' ∧ o'.gist = o.gist ∧ o.session.Peers o'.session := by
  obtain ⟨w, h | h⟩ := h
  · exact (Peers.of_rel (h.run fuel source)).1 o ho
  · exact (Peers.of_rel (h.run fuel source)).2 o ho

/-- Sources one after the other show the same in peers. -/
theorem Peers.plays (h : s.Peers t) {inputs : List Input} {os : List Outcome} {u : Session}
    (hplays : s.Plays inputs os u) :
    ∃ os' u', t.Plays inputs os' u' ∧ os'.map Outcome.gist = os.map Outcome.gist := by
  -- the sessions stay peers from source to source
  induction hplays generalizing t with
  | nil => exact ⟨[], t, .nil, rfl⟩
  | @cons s u clock source o inputs os ends tail ih =>
    obtain ⟨fuel, hrun⟩ := ends
    obtain ⟨o', hrun', hgist, hpeers⟩ := (h.setClock clock).run hrun
    obtain ⟨os', u', htail, hgists⟩ := ih hpeers
    exact ⟨o' :: os', u', .cons ⟨fuel, hrun'⟩ htail, by simp [hgist, hgists]⟩

/-- With enough fuel, a program has the outcome `o`. -/
def Finishes (s : Session) (program : Program) (o : Outcome) : Prop :=
  ∃ fuel, s.runProgram fuel program = some o

end Session

/-- **Braces around a statement that declares nothing of its own change nothing.** In every session
after any number of sources, failed or not, let a source be read as a program, and let another
program be the same, but for marks, with braces around statements at any places in it, all of whose
declarations are in blocks and function bodies of theirs. Then the two programs can print the same,
end alike, without a problem or with the same fault, and leave the same dump, and whatever sources
follow at whatever times, they can print, end and leave the same after either program. -/
theorem braces_transparent {clock : Clock} {s : Session} (hs : (Session.start clock).Reaches s)
    {source : String} {p p' : Program} (hread : (s.read source).1 = .ok p)
    (hp : AllBraced p.statements p'.statements) (inputs : List Input)
    (gist : String × Option Problem × String) (later : List (String × Option Problem × String)) :
    (∃ o os t, s.Ends source o ∧ o.gist = gist ∧ o.session.Plays inputs os t ∧
        os.map Outcome.gist = later) ↔
      ∃ o os t, (s.read source).2.Finishes p' o ∧ o.gist = gist ∧ o.session.Plays inputs os t ∧
        os.map Outcome.gist = later := by
  obtain ⟨w, hself⟩ := hs.corresponds
  have hnamed : (s.read source).2.Corresponds w (s.read source).2 :=
    ⟨by rw [Session.state_read]; exact hself.states, hself.top⟩
  have hrel := fun fuel => Session.Peers.of_rel (hnamed.runProgram hp fuel)
  constructor
  · rintro ⟨o, os, t, ⟨fuel, hrun⟩, rfl, hplays, rfl⟩
    rw [Session.run_of_read_eq_ok hread] at hrun
    obtain ⟨o', hrun', hgist, hpeers⟩ := (hrel fuel).1 o hrun
    obtain ⟨os', t', hplays', hgists⟩ := hpeers.plays hplays
    exact ⟨o', os', t', ⟨fuel, hrun'⟩, hgist, hplays', hgists⟩
  · rintro ⟨o', os', t', ⟨fuel, hrun'⟩, rfl, hplays', rfl⟩
    obtain ⟨o, hrun, hgist, hpeers⟩ := (hrel fuel).2 o' hrun'
    obtain ⟨os, t, hplays, hgists⟩ := hpeers.plays hplays'
    rw [← Session.run_of_read_eq_ok hread] at hrun
    exact ⟨o, os, t, ⟨fuel, hrun⟩, hgist, hplays, hgists⟩

/-- A function that is made in a branch, a loop in a function, and a failure. -/
def keepingSource : String :=
  "var keep; fun twice(n) { while (n < 9) n = n * 2; return n; } " ++
    "if (twice(3) == 12) keep = fun (k) { print twice(k); return keep; }; print keep; keep();"

/-- The function that is kept is made in a frame of braces, and works as before. -/
theorem braces_transparent_keepingSource : ∃ p o os t,
    ((Session.start 0).read keepingSource).1 = .ok p ∧
    p.statements.map Stmt.sheltered = [false, false, true, true, true] ∧
    AllBraced p.statements (p.statements.map Stmt.inBraces) ∧
    ((Session.start 0).read keepingSource).2.Finishes
      { p with statements := p.statements.map Stmt.inBraces } o ∧
    o.gist = ("<fn>\n", some (.running ⟨.arityMismatch 1 0, none⟩),
      "frame 0: keep = <fn>, twice = <fn twice>\n" ++
        "frame 1 (global): clock = <native fn clock>, sqrt = <native fn sqrt>\n") ∧
    o.session.Plays [⟨1, "keep(7)(5);"⟩] os t ∧ os.map (·.gist.1) = ["14\n10\n"] := by
  have hread : ((Session.start 0).read keepingSource).1.toOption.map
      (fun p => p.statements.map Stmt.sheltered) = some [false, false, true, true, true] := by
    decide +kernel
  have hshown : (((Session.start 0).run 9 keepingSource).bind fun o =>
      ((o.session.setClock 1).run 9 "keep(7)(5);").map fun o' => (o.gist, o'.gist.1)) =
        some (("<fn>\n", some (.running ⟨.arityMismatch 1 0, none⟩),
          "frame 0: keep = <fn>, twice = <fn twice>\n" ++
            "frame 1 (global): clock = <native fn clock>, sqrt = <native fn sqrt>\n"),
          "14\n10\n") := by
    decide +kernel
  obtain ⟨p, hp, hshelter⟩ := Option.map_eq_some_iff.1 hread
  obtain ⟨o, ho, hshown⟩ := Option.bind_eq_some_iff.1 hshown
  obtain ⟨o', ho', hshown⟩ := Option.map_eq_some_iff.1 hshown
  obtain ⟨hgist, hlater⟩ := Prod.mk.inj hshown
  have hp : ((Session.start 0).read keepingSource).1 = .ok p := by
    cases h : ((Session.start 0).read keepingSource).1 with
    | error e =>
      rw [h] at hp
      cases hp
    | ok q =>
      rw [h] at hp
      cases hp
      rfl
  have hbraced : AllBraced p.statements
      { p with statements := p.statements.map Stmt.inBraces }.statements := .map_inBraces _
  obtain ⟨b, bs, t, hfinishes, hb, hplays, hbs⟩ :=
    (braces_transparent .refl hp hbraced [⟨1, "keep(7)(5);"⟩] o.gist [o'.gist]).1
      ⟨o, [o'], o'.session, ⟨9, ho⟩, rfl, .cons ⟨9, ho'⟩ .nil, rfl⟩
  refine ⟨p, b, bs, t, hp, hshelter, hbraced, hfinishes, hb.trans hgist, hplays, ?_⟩
  simpa [hlater] using congrArg (List.map Prod.fst) hbs

end Lox
