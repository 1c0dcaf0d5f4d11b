import Lox.Proofs.Independence
import Lox.Proofs.Lexing
import Lox.Proofs.ParserCompleteness
import Lox.Proofs.ParserSoundness
import Lox.Session

/-!
# Two sources as one

Two sources after one another do what one source does that is both of them, with a newline between
them: their tokens are those of both, their trees are those of both up to marks, and marks do not
matter to a run.

* `Written`: a source that is written for certain trees;
* `Session.ends_iff`: the outcome of a source from the end of its program;
* `SameFault`: problems with the same fault;
* `ends_newline_iff`.
-/

namespace Lox

/-! ### Sources and trees -/

/-- A source whose tokens are what trees of the grammar are written with. -/
structure Written (source : String) (trees : List Stmt) : Prop where
  symbols : symbols? source.toList = some (yieldAll trees)
  grammatical : grammaticalAll trees

theorem Written.append {a b : String} {ss ss' : List Stmt} (ha : Written a ss)
    (hb : Written b ss') : Written (a ++ "\n" ++ b) (ss ++ ss') := by
  constructor
  · have hsource : (a ++ "\n" ++ b).toList = a.toList ++ '\n' :: b.toList := by simp
    rw [hsource, symbols?_append ha.symbols, hb.symbols, yieldAll_append]
    rfl
  · rw [grammaticalAll_iff]
    intro s hs
    rcases List.mem_append.1 hs with hs | hs
    · exact grammaticalAll_iff.1 ha.grammatical s hs
    · exact grammaticalAll_iff.1 hb.grammatical s hs

/-- A source that can be read is written for the trees of its program. -/
theorem written_of_read {s : Session} {source : String} {program : Program}
    (h : (s.read source).1 = .ok program) : Written source program.statements := by
  obtain ⟨tokens, hlex, h⟩ := Session.read_eq_ok_iff.1 h
  obtain ⟨ts, eof, rfl, heof, hsymbols, hts⟩ := lex_eq_ok hlex
  unfold parse at h
  cases hprogram : Parser.program (.ofTokens s.names (ts ++ [eof])) with
  | ok ss d =>
    rw [hprogram] at h
    cases h
    obtain ⟨hyield, hgrammatical⟩ := Parser.program_sound hts heof hprogram
    exact ⟨by rw [hsymbols, hyield], hgrammatical⟩
  | error e d =>
    rw [hprogram] at h
    cases h

/-- A source that is written for trees can be read in every session, and its program has these
trees up to marks. -/
theorem Written.read {source : String} {trees : List Stmt} (h : Written source trees)
    (s : Session) : ∃ program, (s.read source).1 = .ok program ∧
      unmarkedAll program.statements = unmarkedAll trees := by
  obtain ⟨tokens, hlex⟩ := exists_lex_eq_ok h.symbols
  obtain ⟨ts, eof, rfl, heof, hsymbols, -⟩ := lex_eq_ok hlex
  have hyield : ts.map Token.symbol = yieldAll trees := by
    simpa [h.symbols] using hsymbols.symm
  have hahead : (Cursor.ofTokens s.names (ts ++ [eof])).ahead = yieldAll trees ++ [eof.symbol] := by
    simp [Cursor.ofTokens, Cursor.ahead, hyield]
  have heof : eof.symbol.kind = .endOfInput := by simpa [Token.isEnd] using heof
  obtain ⟨ss, d, hprogram, hss, -⟩ := Parser.program_takes h.grammatical heof hahead
  let program : Program := ⟨ss, d.exprCount, d.stmtCount, d.targets.reverse⟩
  refine ⟨program, Session.read_eq_ok_iff.2 ⟨_, hlex, ?_⟩, hss⟩
  rw [parse, hprogram]

/-! ### Outcomes -/

/-- The outcome of a source that can be read is the end of its program. -/
theorem Session.ends_iff {s : Session} {source : String} {program : Program} {o : Outcome}
    (h : (s.read source).1 = .ok program) :
    s.Ends source o ↔ ∃ r t, Halts program.statements { s.state with output := "", program } r t ∧
      o = settle (s.read source).2.names (problem? r) t := by
  unfold Ends
  constructor
  · rintro ⟨fuel, hrun⟩
    rw [run_of_read_eq_ok h] at hrun
    obtain ⟨r, t, hstatements, hr, rfl⟩ := runProgram_eq_some_iff.1 hrun
    rw [state_read] at hstatements
    exact ⟨r, t, ⟨hr, fuel, hstatements⟩, rfl⟩
  · rintro ⟨r, t, ⟨hr, fuel, hrun⟩, rfl⟩
    refine ⟨fuel, ?_⟩
    rw [run_of_read_eq_ok h]
    exact runProgram_eq_some_iff.2 ⟨r, t, by rwa [state_read], hr, rfl⟩

/-- No problem in either case, or runs that failed with the same fault. -/
inductive SameFault : Option Problem → Option Problem → Prop
  | none : SameFault none none
  | running {e e' : RuntimeError} (h : e.fault = e'.fault) :
      SameFault (some (.running e)) (some (.running e'))

/-- What is reported of a problem, beside the text that it is blamed on. -/
def Problem.summary (p : Problem) : String × Code × Nat :=
  (p.message, p.diagnostic.code, p.exitCode)

theorem SameFault.summary {p q : Option Problem} (h : SameFault p q) :
    p.map Problem.summary = q.map Problem.summary := by
  cases h with
  | none => rfl
  | running h =>
    simp only [Option.map_some, Problem.summary, Problem.message, RuntimeError.message,
      Problem.diagnostic, RuntimeError.diagnostic, Problem.exitCode, h]

/-- The outcome `whole` is that of two sources as one, whose outcomes after one another are `first`
and `second`: it prints what both print, and ends as the second one ends. -/
structure Outcome.Joins (first second whole : Outcome) : Prop where
  printed : whole.printed = first.printed ++ second.printed
  dump : whole.session.env.dump = second.session.env.dump
  fault : SameFault whole.problem second.problem
  summary : whole.problem.map Problem.summary = second.problem.map Problem.summary

theorem sameFault_of_resultLike {r r' : Except Stop Unit}
    (h : ResultLike (fun _ _ => True) r r') :
    SameFault (Session.problem? r) (Session.problem? r') := by
  cases h with
  | ok => exact .none
  | error h => exact .running h

/-- A source that ends without a problem has been read and run to the end of its program. -/
theorem Session.Ends.of_problem_eq_none {s : Session} {source : String} {o : Outcome}
    (h : s.Ends source o) (hok : o.problem = none) :
    ∃ program t, (s.read source).1 = .ok program ∧
      Halts program.statements { s.state with output := "", program } (.ok ()) t ∧
      o = settle (s.read source).2.names none t := by
  cases hread : (s.read source).1 with
  | error p =>
    obtain ⟨fuel, hrun⟩ := h
    rw [run_of_read_eq_error hread] at hrun
    cases hrun
    cases hok
  | ok program =>
    obtain ⟨r, t, hhalts, rfl⟩ := (ends_iff hread).1 h
    refine ⟨program, t, rfl, ?_⟩
    rcases r with (e | _) | _
    · cases hok
    · exact absurd rfl hhalts.1
    · exact ⟨hhalts, rfl⟩

/-! ### Two halves of a program -/

theorem unmarkedAll_eq_append {ss a b : List Stmt} (h : unmarkedAll ss = unmarkedAll (a ++ b)) :
    ∃ a' b', ss = a' ++ b' ∧ unmarkedAll a = unmarkedAll a' ∧ unmarkedAll b = unmarkedAll b' := by
  simp only [unmarkedAll_eq_map, List.map_append] at h ⊢
  obtain ⟨a', b', rfl, ha, hb⟩ := List.map_eq_append_iff.1 h
  exact ⟨a', b', rfl, ha.symm, hb.symm⟩

/-- When the first half of a program ends without an error, the whole program ends if and only if
the second half does from there, and ends like it. -/
theorem Halts.append_iff {a a' b b' : List Stmt} {s s' t u : State} (ha : Halts a s (.ok ()) t)
    (haa : unmarkedAll a = unmarkedAll a') (hbb : unmarkedAll b = unmarkedAll b')
    (hs : s.Alike "" "" s') (hu : u.unmarked = t.unmarked) (hout : u.output = "") :
    ((∃ r v, Halts (a' ++ b') s' r v) ↔ ∃ r v, Halts b u r v) ∧
      ∀ r v r' v', Halts (a' ++ b') s' r v → Halts b u r' v' →
        ResultLike (fun _ _ => True) r r' ∧ v.Alike t.output "" v' := by
  -- wherever the first half leads from `s'`, the second half is run from a state like `u`
  have middle : ∀ q t', Halts a' s' q t' → q = .ok () ∧ t'.Alike t.output "" u := by
    intro q t' ha'
    obtain ⟨hresult, hstate⟩ := ha.like ha' haa hs
    refine ⟨by cases hresult; rfl, hu ▸ hstate.unmarked.symm, "", ?_, by simp [hout]⟩
    obtain ⟨out, ht, ht'⟩ := hstate.output
    rw [ht, ht', String.append_empty]
  refine ⟨⟨?_, ?_⟩, ?_⟩
  · rintro ⟨r, v, h⟩
    obtain ⟨q, t', ha', hb'⟩ := h.of_append
    obtain ⟨rfl, hstate⟩ := middle q t' ha'
    exact (hb' rfl).exists_like hbb.symm hstate
  · rintro ⟨r, v, hb⟩
    obtain ⟨q, t', ha'⟩ := ha.exists_like haa hs
    obtain ⟨rfl, hstate⟩ := middle q t' ha'
    obtain ⟨r', v', hb'⟩ := hb.exists_like hbb hstate.symm
    exact ha'.append hb'
  · intro r v r' v' h hb
    obtain ⟨q, t', ha', hb'⟩ := h.of_append
    obtain ⟨rfl, hstate⟩ := middle q t' ha'
    exact (hb' rfl).like hb hbb.symm hstate

/-! ### The theorem -/

/-- **A source goes on where the one before it ended.** In every session, if a source runs without a
problem and another one can be read, then the second one ends after the first if and only if the
source that is both of them with a newline between them ends. What is printed, the dump after it
and the fault of a failure are the same then. -/
theorem ends_newline_iff {s s' : Session} {a b : String} {first : Outcome} {program : Program}
    (hfirst : s.Ends a first) (hok : first.problem = none)
    (hread : (s'.read b).1 = .ok program) :
    ((∃ whole, s.Ends (a ++ "\n" ++ b) whole) ↔ ∃ second, first.session.Ends b second) ∧
    ∀ whole second, s.Ends (a ++ "\n" ++ b) whole → first.session.Ends b second →
      first.Joins second whole := by
  obtain ⟨pa, t, hreada, hhalts, rfl⟩ := hfirst.of_problem_eq_none hok
  have hb := written_of_read hread
  obtain ⟨pw, hreadw, hpw⟩ := ((written_of_read hreada).append hb).read s
  obtain ⟨pb, hreadb, hpb⟩ := hb.read (Session.settle (s.read a).2.names none t).session
  obtain ⟨sa, sb, hstatements, hsa, hsb⟩ := unmarkedAll_eq_append hpw
  have hs : State.Alike "" "" { s.state with output := "", program := pa }
      { s.state with output := "", program := pw } := ⟨rfl, "", rfl, rfl⟩
  obtain ⟨hiff, hlike⟩ := hhalts.append_iff (u := { t with output := "", program := pb }) hsa
    (hpb.trans hsb) hs rfl rfl
  rw [← hstatements] at hiff hlike
  refine ⟨⟨?_, ?_⟩, ?_⟩
  · rintro ⟨whole, hwhole⟩
    obtain ⟨r, v, hw, -⟩ := (Session.ends_iff hreadw).1 hwhole
    obtain ⟨r', v', hsecond⟩ := hiff.1 ⟨r, v, hw⟩
    exact ⟨_, (Session.ends_iff hreadb).2 ⟨r', v', hsecond, rfl⟩⟩
  · rintro ⟨second, hsecond⟩
    obtain ⟨r, v, hs, -⟩ := (Session.ends_iff hreadb).1 hsecond
    obtain ⟨r', v', hw⟩ := hiff.2 ⟨r, v, hs⟩
    exact ⟨_, (Session.ends_iff hreadw).2 ⟨r', v', hw, rfl⟩⟩
  · intro whole second hwhole hsecond
    obtain ⟨r, v, hw, rfl⟩ := (Session.ends_iff hreadw).1 hwhole
    obtain ⟨r', v', hs, rfl⟩ := (Session.ends_iff hreadb).1 hsecond
    obtain ⟨hresult, hstate⟩ := hlike r v r' v' hw hs
    obtain ⟨out, hv, hv'⟩ := hstate.output
    have hfault := sameFault_of_resultLike hresult
    refine ⟨?_, ?_, hfault, hfault.summary⟩
    · show v.output = t.output ++ v'.output
      rw [hv, hv', String.empty_append]
    · show v.env.dump = v'.env.dump
      rw [← Environment.dump_unmarked, hstate.env, Environment.dump_unmarked]

/-- A source that ends in an `if` without `else`, and defines a function with a name of its own. -/
def firstSource : String :=
  "var n = 2; fun twice(x) \x7b return x * n; \x7d if (n < 3) print twice(n);"

/-- A source that calls the function, and fails in it at the second call. -/
def secondSource : String :=
  "n = 5; print twice(1); print twice(nil);"

/-- The functions of the first source are called by the second one, whose failure is the same. -/
theorem ends_newline_iff_failure : ∃ first second whole,
    (Session.start 0).Ends firstSource first ∧ first.session.Ends secondSource second ∧
      (Session.start 0).Ends (firstSource ++ "\n" ++ secondSource) whole ∧
      second.problem.isSome ∧ first.Joins second whole := by
  have hread : ((Session.start 0).read secondSource).1.isOk := by decide +kernel
  have hruns : (((Session.start 0).run 9 firstSource).bind fun first =>
      if first.problem.isNone then
        (first.session.run 9 secondSource).filter (·.problem.isSome)
      else none).isSome := by decide +kernel
  obtain ⟨second, hruns⟩ := Option.isSome_iff_exists.1 hruns
  obtain ⟨first, hfirst, hruns⟩ := Option.bind_eq_some_iff.1 hruns
  split at hruns
  · next hok =>
    obtain ⟨hsecond, hproblem⟩ := Option.filter_eq_some_iff.1 hruns
    cases hp : ((Session.start 0).read secondSource).1 with
    | ok program =>
      obtain ⟨hiff, hjoins⟩ := ends_newline_iff ⟨9, hfirst⟩ (Option.isNone_iff_eq_none.1 hok) hp
      obtain ⟨whole, hwhole⟩ := hiff.2 ⟨second, 9, hsecond⟩
      exact ⟨first, second, whole, ⟨9, hfirst⟩, ⟨9, hsecond⟩, hwhole, hproblem,
        hjoins whole second hwhole ⟨9, hsecond⟩⟩
    | error p =>
      rw [hp] at hread
      cases hread
  · cases hruns

end Lox
