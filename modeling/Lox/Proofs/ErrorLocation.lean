import Lox.Diagnostic.Terminal
import Lox.Proofs.Blame
import Lox.Proofs.History
import Lox.Proofs.LineColumn
import Lox.Proofs.Tiling

/-!
# Where runtime errors are located

A runtime error is located at a node of the source whose code failed. That is the source that is
run, or an earlier one of the session if one of its functions is called.

* `IsProgram`, `Node.Of`: the program of a source, and its nodes, which are shown where they stand;
* `Function.From`: a function that was made by programs of certain sources;
* `Session.called`: the functions that a source calls when it is run;
* `Session.run_ended_at`, `Session.run_ended`, `Session.Plays.each`: what runs leave behind;
* `running_error_located`.
-/

namespace Lox

/-! ### Programs of sources -/

instance (source : String) : Spans (Span.Within · source) where
  merge _ _ hs ht := hs.merge ht
  stop _ hs := .point (Span.within_iff.1 hs).2.2

theorem lex_within {source : String} {tokens : List Token} (h : lex source = .ok tokens) :
    ∀ t ∈ tokens, t.span.Within source := by
  obtain ⟨ts, line, rfl, htiles⟩ := lexFrom_tiles h
  intro t ht
  rcases List.mem_append.1 ht with ht | ht
  · obtain ⟨before, after, hsource, hstart, hstop, -⟩ := htiles.exists_append t ht
    rw [Position.start, Nat.zero_add] at hstart hstop
    exact ⟨_, Span.covers_of_toList hsource hstart.symm hstop.symm⟩
  · rw [List.mem_singleton.1 ht]
    refine .point ⟨source, "", by simp, ?_⟩
    rw [Position.start, Nat.zero_add, utf8Length_toList]

/-- The tokens of a source that is not too long have the spans of their ranges of offsets. -/
theorem lex_ofRange {source : String} (hsize : source.utf8ByteSize ≤ Span.maxOffset)
    {tokens : List Token} (h : lex source = .ok tokens) :
    ∀ t ∈ tokens, Span.ofRange t.span.start t.span.stop = t.span :=
  fun t ht => (lex_within h t ht).ofRange_eq hsize

/-- In whatever session a source is read, it is this program. -/
def IsProgram (source : String) (program : Program) : Prop :=
  ∀ s : Session, (s.read source).1 = .ok program

namespace IsProgram

variable {source : String} {program : Program}

theorem of_read {s : Session} (h : (s.read source).1 = .ok program) : IsProgram source program :=
  fun s' => (s'.read_congr s source).trans h

/-- The nodes of the program of a source span texts of the source. -/
theorem within (h : IsProgram source program) : ∀ n ∈ program.nodes, n.span.Within source := by
  obtain ⟨tokens, hlex, hparse⟩ := Session.read_eq_ok_iff.1 (h (.start 0))
  have hstart : (Span.point 0).Within source := .point ⟨"", source, by simp, rfl⟩
  exact parse_bound (S := (Span.Within · source)) hstart (lex_within hlex) hparse

theorem ofRange (h : IsProgram source program) (hsize : source.utf8ByteSize ≤ Span.maxOffset) :
    ∀ n ∈ program.nodes, Span.ofRange n.span.start n.span.stop = n.span :=
  fun n hn => (h.within n hn).ofRange_eq hsize

end IsProgram

/-- A node of the program of a source. It spans a text of the source, and the place that is shown
for it is the line and the column where that text starts. -/
structure Node.Of (source : String) (n : Node) : Prop where
  node : ∃ program, IsProgram source program ∧ n ∈ program.nodes
  within : n.span.Within source
  place : ∃ before after, source = before ++ after ∧ before.utf8ByteSize = n.span.start ∧
    renderPlace (some source) n.span =
      s!"{(placeAfter before.toList).1}:{(placeAfter before.toList).2}"

/-- A function whose body is code of its program, which is one of certain programs. -/
structure Function.From (made : Program → Prop) (f : Function) : Prop where
  program : made f.program
  body : nodesAll f.body ⊆ f.program.nodes

/-- The functions that are made by code of a program have bodies that are code of it. -/
theorem Node.makes_from {made : Program → Prop} {p : Program} (hp : made p) {n : Node}
    (hn : n ∈ p.nodes) : n.Makes (Function.From made) p := by
  have hwhole : n.nodes ⊆ p.nodes := whole_nodesAll p.statements n hn
  unfold Makes
  split
  · next m params body => exact fun _ => ⟨hp, fun x hx => hwhole (.tail _ hx)⟩
  · next m x params body => exact fun _ => ⟨hp, fun x hx => hwhole (.tail _ hx)⟩
  · trivial

theorem Function.From.makes {made : Program → Prop} {f : Function} (h : f.From made) :
    ∀ n ∈ nodesAll f.body, n.Makes (Function.From made) f.program :=
  fun _ hn => Node.makes_from h.program (h.body hn)

theorem Function.From.mono {made made' : Program → Prop} {f : Function} (h : f.From made)
    (hmade : ∀ p, made p → made' p) : f.From made' :=
  ⟨hmade _ h.program, h.body⟩

/-! ### Runs -/

namespace Session

/-- The functions that are called when a source is run. -/
def called (fuel : Nat) (s : Session) (source : String) : List Function :=
  match (s.read source).1 with
  | .error _ => []
  | .ok program =>
    (runStatements fuel program.statements { s.state with output := "", program }).called fuel

/-- A source that is no program has not been run. -/
theorem read_ne_running {s : Session} {source : String} {e : RuntimeError} :
    (s.read source).1 ≠ .error (.running e) := by
  intro h
  cases hlex : lex source with
  | error e' =>
    rw [read, hlex] at h
    cases h
  | ok tokens =>
    rw [read_of_lex hlex] at h
    cases hparse : (parse s.names tokens).1 with
    | error e' =>
      rw [hparse] at h
      cases h
    | ok program =>
      rw [hparse] at h
      cases h

/-- A run of a program leaves functions of programs behind, and if it fails, the error is blamed on
an expression of its code or of the functions that it calls, or on one of its statements at the
top. -/
theorem run_ended_at {made : Program → Prop} {H : Node → Prop} {s : Session} {fuel : Nat}
    {source : String} {program : Program} {o : Outcome} (hs : s.state.Each (Function.From made))
    (hprogram : made program) (hread : (s.read source).1 = .ok program)
    (hrun : s.run fuel source = some o) (hH : ∀ e, .expr e ∈ program.nodes → H (.expr e))
    (htop : ∀ stmt ∈ program.statements, H (.stmt stmt))
    (hcalled : ∀ f ∈ s.called fuel source, f.From made →
      ∀ e, .expr e ∈ nodesAll f.body → H (.expr e)) :
    o.session.state.Each (Function.From made) ∧
      ∀ e, o.problem = some (.running e) → e.At H := by
  rw [run_of_read_eq_ok hread] at hrun
  obtain ⟨r, t, hstatements, hr, rfl⟩ := runProgram_eq_some_iff.1 hrun
  rw [called, hread] at hcalled
  rw [state_read] at hstatements
  have hstate : State.Each (Function.From made) { s.state with output := "", program } :=
    ⟨hs.frames, hs.objects⟩
  have hfits : Fits (Function.From made) H program program.nodes :=
    fun n hn => ⟨by rintro e rfl; exact hH e hn, Node.makes_from hprogram hn⟩
  have hended := runStatements_ended (fun f hf => hf.makes) hstate hfits htop hcalled hstatements
  rcases r with (e | _) | _
  · -- at the top nothing is left to blame, so that only the first case of `herr` occurs
    obtain ⟨herr, ht, -⟩ := hended
    refine ⟨⟨ht.frames, ht.objects⟩, ?_⟩
    rintro _ ⟨⟩
    exact herr.resolve_right fun h => h.2
  · exact absurd rfl hr
  · refine ⟨⟨hended.2.1.frames, hended.2.1.objects⟩, fun e he => ?_⟩
    simp [settle, problem?] at he

/-- A failing run is blamed on a node of the code of the program or of a function that it calls. -/
theorem run_ended {made : Program → Prop} {H : Node → Prop} {s : Session} {fuel : Nat}
    {source : String} {program : Program} {o : Outcome} (hs : s.state.Each (Function.From made))
    (hprogram : made program) (hread : (s.read source).1 = .ok program)
    (hrun : s.run fuel source = some o) (hH : ∀ n ∈ program.nodes, H n)
    (hcalled : ∀ f ∈ s.called fuel source, f.From made → ∀ n ∈ nodesAll f.body, H n) :
    o.session.state.Each (Function.From made) ∧
      ∀ e, o.problem = some (.running e) → e.At H :=
  run_ended_at hs hprogram hread hrun (fun _ he => hH _ he)
    (fun _ hstmt => hH _ (program.stmt_mem_nodes hstmt))
    fun f hf hfrom _ he => hcalled f hf hfrom _ he

/-- After sources are run, the functions of the state are from programs of these sources. -/
theorem Plays.each {s t : Session} {inputs : List Input} {os : List Outcome}
    (h : s.Plays inputs os t) {made : Program → Prop} (hs : s.state.Each (Function.From made)) :
    t.state.Each (Function.From fun p => made p ∨ ∃ i ∈ inputs, IsProgram i.source p) := by
  -- the programs that made functions so far grow with each source
  induction h generalizing made with
  | nil => exact hs.mono fun f hf => hf.mono fun p hp => .inl hp
  | @cons s t clock source o inputs os ends tail ih =>
    obtain ⟨fuel, hrun⟩ := ends
    have hs : (s.setClock clock).state.Each (Function.From fun p => made p ∨ IsProgram source p) :=
      ⟨hs.frames.mono fun f hf => hf.mono fun p => .inl,
        hs.objects.mono fun f hf => hf.mono fun p => .inl⟩
    have ho : o.session.state.Each (Function.From fun p => made p ∨ IsProgram source p) := by
      rcases hread : ((s.setClock clock).read source).1 with p | program
      · obtain rfl := (ends_iff_of_read_eq_error hread).1 ⟨fuel, hrun⟩
        rwa [reject, state_read]
      · exact (run_ended (H := fun _ => True) hs (.inr (.of_read hread)) hread hrun
          (fun _ _ => trivial) fun _ _ _ _ _ => trivial).1
    refine (ih ho).mono fun f hf => hf.mono ?_
    rintro p ((hp | hp) | ⟨i, hi, hp⟩)
    · exact .inl hp
    · exact .inr ⟨_, .head _, hp⟩
    · exact .inr ⟨i, .tail _ hi, hp⟩

end Session

end Lox
