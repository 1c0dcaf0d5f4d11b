import Lox.Proofs.Composition
import Lox.Proofs.ParserTracing

/-!
# Layout

What stands between the tokens of a source only moves the tokens. Two sources with the same tokens
are read to the same trees up to spans, or are rejected for the same fault, and they do the same.

* `SameTokens`: sources with the same tokens at different places;
* `ReadAlike`: what reading such sources gives, and `read_alike`;
* `Outcome.Same`: outcomes that differ in marks only, and `Session.same_ends`;
* `layout_irrelevant`.
-/

namespace Lox

/-! ### Sources -/

/-- A token without its place. -/
def Token.content (t : Token) : Kind × String × Option Payload := (t.kind, t.lexeme, t.payload)

/-- Sources that have the same tokens but for their places. -/
def SameTokens (a b : String) : Prop :=
  ∃ ts ts', lex a = .ok ts ∧ lex b = .ok ts' ∧ ts.map Token.content = ts'.map Token.content

/-- Places that have nothing to do with each other. The name tables are the same. -/
def Correspondence.anywhere : Correspondence where
  spans _ _ := True
  lines _ _ := True
  names := Eq
  merge _ _ := trivial
  stop _ := trivial
  firstLine := trivial
  insert text h := congrArg (·.insert text) h

theorem tokens_like_of_content {ts ts' : List Token}
    (h : ts.map Token.content = ts'.map Token.content) :
    List.Forall₂ (Token.Like .anywhere) ts ts' := by
  rw [← List.forall₂_eq_eq_eq, List.forall₂_map_left_iff, List.forall₂_map_right_iff] at h
  refine h.imp fun t t' heq => ?_
  obtain ⟨hkind, hcontent⟩ := Prod.mk.inj heq
  obtain ⟨hlexeme, hpayload⟩ := Prod.mk.inj hcontent
  exact ⟨hkind, hlexeme, hpayload, trivial, trivial⟩

/-! ### Reading -/

/-- Marks with the same number. -/
def SameNumber (m m' : Mark) : Prop := m.number = m'.number

/-- Errors that say the same, at different places. -/
structure ParseError.Same (e e' : ParseError) : Prop where
  fault : e.fault = e'.fault
  code : e.diagnostic.code = e'.diagnostic.code
  message : e.diagnostic.message = e'.diagnostic.message
  found : e.found = e'.found

/-- What is read from two sources: the same trees up to spans, or errors that say the same. -/
inductive ReadAlike : Except Problem Program → Except Problem Program → Prop
  | ok {p p' : Program} (statements : AllLike SameNumber p.statements p'.statements)
    (targets : EachLike SameNumber p.targets p'.targets) (exprCount : p.exprCount = p'.exprCount)
    (stmtCount : p.stmtCount = p'.stmtCount) : ReadAlike (.ok p) (.ok p')
  | error {e e' : ParseError} (same : e.Same e') :
    ReadAlike (.error (.parsing e)) (.error (.parsing e'))

theorem marks_anywhere : Correspondence.anywhere.marks = SameNumber := by
  funext m m'
  exact propext (and_iff_left trivial)

theorem ParseError.Like.same {e e' : ParseError} (h : e.Like .anywhere e') : e.Same e' :=
  ⟨h.fault, congrArg ParseFault.code h.fault, congrArg ParseFault.message h.fault, h.found⟩

/-- Sources with the same tokens are read alike, and add the same names to the name table. -/
theorem read_alike {a b : String} (h : SameTokens a b) (s : Session) :
    ReadAlike (s.read a).1 (s.read b).1 ∧ (s.read a).2 = (s.read b).2 := by
  obtain ⟨ts, ts', ha, hb, hcontent⟩ := h
  obtain ⟨hparsed, hnames⟩ := parse_like (K := .anywhere) trivial (Eq.refl s.names)
    (tokens_like_of_content hcontent)
  rw [Session.read_of_lex ha, Session.read_of_lex hb]
  refine ⟨?_, congrArg (Session.mk · s.state) hnames⟩
  generalize (parse s.names ts).1 = r, (parse s.names ts').1 = r' at hparsed
  cases hparsed with
  | ok statements exprCount stmtCount targets =>
    rw [marks_anywhere] at statements targets
    exact .ok statements (eachLike_iff.2 targets) exprCount stmtCount
  | error error => exact .error error.same

/-! ### Running -/

/-- Outcomes of sources that do the same: they print the same, and end with the same dump and the
same fault, if any. -/
structure Outcome.Same (o o' : Outcome) : Prop where
  printed : o.printed = o'.printed
  dump : o.session.env.dump = o'.session.env.dump
  fault : SameFault o.problem o'.problem
  summary : o.problem.map Problem.summary = o'.problem.map Problem.summary

/-- Sources that are read to the same trees up to marks do the same. -/
theorem Session.same_ends {s : Session} {a b : String} {p p' : Program}
    (ha : (s.read a).1 = .ok p) (hb : (s.read b).1 = .ok p')
    (h : unmarkedAll p.statements = unmarkedAll p'.statements) :
    ((∃ o, s.Ends a o) ↔ ∃ o', s.Ends b o') ∧
      ∀ o o', s.Ends a o → s.Ends b o' → o.Same o' := by
  have hs : State.Alike "" "" { s.state with output := "", program := p }
      { s.state with output := "", program := p' } := ⟨rfl, "", rfl, rfl⟩
  refine ⟨⟨?_, ?_⟩, ?_⟩
  · rintro ⟨o, ho⟩
    obtain ⟨r, t, hr, -⟩ := (ends_iff ha).1 ho
    obtain ⟨r', t', hr'⟩ := hr.exists_like h hs
    exact ⟨_, (ends_iff hb).2 ⟨r', t', hr', rfl⟩⟩
  · rintro ⟨o, ho⟩
    obtain ⟨r, t, hr, -⟩ := (ends_iff hb).1 ho
    obtain ⟨r', t', hr'⟩ := hr.exists_like h.symm hs.symm
    exact ⟨_, (ends_iff ha).2 ⟨r', t', hr', rfl⟩⟩
  · intro o o' ho ho'
    obtain ⟨r, t, hr, rfl⟩ := (ends_iff ha).1 ho
    obtain ⟨r', t', hr', rfl⟩ := (ends_iff hb).1 ho'
    obtain ⟨hresult, hstate⟩ := hr.like hr' h hs
    obtain ⟨out, ht, ht'⟩ := hstate.output
    have hfault := sameFault_of_resultLike hresult
    refine ⟨ht.trans ht'.symm, ?_, hfault, hfault.summary⟩
    show t.env.dump = t'.env.dump
    rw [← Environment.dump_unmarked, hstate.env, Environment.dump_unmarked]

/-! ### The theorem -/

/-- **Layout does not matter.** Two sources with the same tokens are, in every session, read to the
same trees up to spans, or are both rejected with errors that say the same. If they are read, the
first one ends if and only if the second one does, and they print the same, end with the same dump,
and fail with the same fault or not at all. -/
theorem layout_irrelevant {a b : String} (h : SameTokens a b) (s : Session) :
    ReadAlike (s.read a).1 (s.read b).1 ∧ (s.read a).2 = (s.read b).2 ∧
      ((s.read a).1.isOk →
        ((∃ o, s.Ends a o) ↔ ∃ o', s.Ends b o') ∧
          ∀ o o', s.Ends a o → s.Ends b o' → o.Same o') := by
  obtain ⟨hread, hsession⟩ := read_alike h s
  refine ⟨hread, hsession, fun hok => ?_⟩
  generalize ha : (s.read a).1 = r, hb : (s.read b).1 = r' at hread hok
  cases hread with
  | ok statements => exact s.same_ends ha hb statements.unmarked
  | error => cases hok

/-- A source on one line. -/
def denseSource : String := "var a=2;fun f(x){return x*a;}print f(3);print f(nil);"

/-- The same source on several lines, with a comment. -/
def spacedSource : String :=
  "var a = 2; // a factor
fun f(x) {
  return x * a;
}

print f(3);
print f( nil );
"

/-- A function of both sources fails at the second call, on different lines. -/
theorem layout_irrelevant_failure : SameTokens denseSource spacedSource ∧
    ∃ o o', (Session.start 0).Ends denseSource o ∧ (Session.start 0).Ends spacedSource o' ∧
      o.problem.isSome ∧ o.problem ≠ o'.problem ∧ o.Same o' := by
  have htokens : SameTokens denseSource spacedSource := by
    have hcontent : (match lex denseSource, lex spacedSource with
        | .ok ts, .ok ts' => decide (ts.map Token.content = ts'.map Token.content)
        | _, _ => false) = true := by decide +kernel
    split at hcontent
    · next ts ts' ha hb => exact ⟨ts, ts', ha, hb, of_decide_eq_true hcontent⟩
    · cases hcontent
  have hread : ((Session.start 0).read denseSource).1.isOk := by decide +kernel
  have hruns : (((Session.start 0).run 5 denseSource).bind fun o =>
      ((Session.start 0).run 5 spacedSource).map fun o' =>
        o.problem.isSome && o.problem ≠ o'.problem) = some true := by
    decide +kernel
  obtain ⟨o, ho, hruns⟩ := Option.bind_eq_some_iff.1 hruns
  obtain ⟨o', ho', hproblems⟩ := Option.map_eq_some_iff.1 hruns
  obtain ⟨hsome, hne⟩ := Bool.and_eq_true_iff.1 hproblems
  obtain ⟨-, hsame⟩ := (layout_irrelevant htokens (Session.start 0)).2.2 hread
  exact ⟨htokens, o, o', ⟨5, ho⟩, ⟨5, ho'⟩, hsome, of_decide_eq_true hne,
    hsame o o' ⟨5, ho⟩ ⟨5, ho'⟩⟩

end Lox
