import Lox.Proofs.NodeNumbers
import Lox.Proofs.Reading

/-!
# The numbers of nodes

A reader makes the nodes of a tree one after the other, those below a node before the node, and
numbers them with its counts. So the number of a node is its place in the arena of the program. The
targets that it keeps are what assignments replaced.

* `Tally`, `Made`: what has been made, and what is made in between;
* `Expr.InOrder`, `Stmt.InOrder`: trees whose nodes are made in order;
* `Numbers`: what a reader makes from a given tally on, with a rule for each way to build readers;
* one lemma for each reader;
* `parse_numbered`: the nodes of a program are numbered in order;
* `parse_targets`: its targets are the left sides of its assignments.
-/

namespace Lox

/-- What has been made before a place: so many nodes, and the targets of assignments, last first. -/
structure Tally where
  counts : Counts
  targets : List Expr

/-- What an assignment replaced, at the place of the assignment. -/
def Slot.left? (slot : Slot) : Option LeftSide := slot.node?.bind Node.left?

/-- Nodes are made that have the numbers of their places, and the targets that are kept are what the
assignments among them replaced. -/
structure Made (c : Tally) (slots : List Slot) (d : Tally) : Prop where
  numbered : Numbered c.counts slots d.counts
  targets : d.targets.map Expr.asLeft? =
    (slots.filterMap Slot.left?).reverse.map some ++ c.targets.map Expr.asLeft?

namespace Made

variable {b c d : Tally} {l k : List Slot}

theorem nil : Made c [] c := ⟨.nil, rfl⟩

theorem append (h : Made b l c) (h' : Made c k d) : Made b (l ++ k) d where
  numbered := h.numbered.append h'.numbered
  targets := by simp [h'.targets, h.targets]

theorem expr {e : Expr} (number : e.mark.number = c.counts.exprs) (hleft : e.left? = none) :
    Made c [.node (.expr e)] ⟨⟨c.counts.exprs + 1, c.counts.stmts⟩, c.targets⟩ where
  numbered := .expr number .nil
  targets := by simp [Slot.left?, Slot.node?, Node.left?, hleft]

theorem stmt {s : Stmt} (number : s.mark.number = c.counts.stmts) :
    Made c [.node (.stmt s)] ⟨⟨c.counts.exprs, c.counts.stmts + 1⟩, c.targets⟩ where
  numbered := .stmt number .nil
  targets := by simp [Slot.left?, Slot.node?, Node.left?]

/-- A target is kept, and then the assignment is made. Its left side is the target. -/
theorem assign {target e value : Expr} (ht : Made b (l ++ [.node (.expr target)]) c)
    (hv : Made c value.slots d) (hleft : target.left? = none)
    (number : e.mark.number = d.counts.exprs)
    (he : target.mark.number = e.mark.number - exprsMade value.slots - 1 →
      ∃ left, target.asLeft? = some left ∧ e.left? = some left) :
    Made b (l ++ [.target] ++ value.slots ++ [.node (.expr e)])
      ⟨⟨d.counts.exprs + 1, d.counts.stmts⟩, target :: d.targets⟩ where
  numbered := (ht.numbered.retarget.append hv.numbered).append (.expr number .nil)
  targets := by
    obtain ⟨a, -, hlast⟩ := ht.numbered.split
    have hplace : target.mark.number + 1 = c.counts.exprs := by
      generalize c.counts = n at hlast
      cases hlast with
      | expr htarget tail =>
        cases tail
        rw [htarget]
    obtain ⟨left, htarget, hassigned⟩ := he (by rw [number, hv.numbered.exprs_eq]; omega)
    simp [Slot.left?, Slot.node?, Node.left?, hassigned, htarget, hv.targets, ht.targets, hleft,
      List.filterMap_cons]

end Made

/-- The nodes of an expression are made in order, between certain tallies. -/
abbrev Expr.InOrder (c : Tally) (e : Expr) (d : Tally) : Prop := Made c e.slots d

/-- The nodes of a statement are made in order, between certain tallies. -/
abbrev Stmt.InOrder (c : Tally) (s : Stmt) (d : Tally) : Prop := Made c s.slots d

/-- How many nodes were made before a place. -/
def Cursor.counts (s : Cursor) : Counts := ⟨s.exprCount, s.stmtCount⟩

/-- What has been made before a place. -/
def Cursor.tally (s : Cursor) : Tally := ⟨s.counts, s.targets⟩

namespace Parser

variable {α β : Type} {b c d : Tally}

/-- Where so much was made as `c` says, a reader makes something that satisfies `P` together with
the tally after it, unless it fails. -/
def Numbers (c : Tally) (P : α → Tally → Prop) (p : Parser α) : Prop :=
  ∀ s a t, s.tally = c → p s = .ok a t → P a t.tally

/-- A reader that makes nothing. -/
def Quiet (p : Parser α) : Prop := ∀ s a t, p s = .ok a t → t.tally = s.tally

/-! ### Rules -/

theorem numbers_pure {P : α → Tally → Prop} {a : α} (h : P a c) : Numbers c P (pure a) := by
  rintro s _ _ rfl ⟨⟩
  exact h

theorem numbers_failAt {P : α → Tally → Prop} (fault : ParseFault) (t : Token) :
    Numbers c P (failAt fault t) := by
  rintro s _ _ - ⟨⟩

namespace Numbers

variable {P : α → Tally → Prop} {Q : β → Tally → Prop} {x : Parser α}

theorem bind {g : α → Parser β} (hx : Numbers c P x)
    (hg : ∀ a d, P a d → Numbers d Q (g a)) : Numbers c Q (x >>= g) := by
  intro s b u hs h
  obtain ⟨a, t, hxs, hgt⟩ := bind_eq_ok.1 h
  exact hg a t.tally (hx s a t hs hxs) t b u rfl hgt

theorem mono {P' : α → Tally → Prop} (hx : Numbers c P x) (h : ∀ a d, P a d → P' a d) :
    Numbers c P' x := fun s a t hs hxs => h a t.tally (hx s a t hs hxs)

theorem map {f : α → β} (hx : Numbers c P x) (hf : ∀ a d, P a d → Q (f a) d) :
    Numbers c Q (f <$> x) := by
  rw [← bind_pure_comp]
  exact hx.bind fun a d ha => numbers_pure (hf a d ha)

/-- Both sides of a choice that depends on what was read. -/
theorem ite {y : Parser α} {p : Prop} [Decidable p] (hx : Numbers c P x) (hy : Numbers c P y) :
    Numbers c P (if p then x else y) := by
  split
  · exact hx
  · exact hy

end Numbers

namespace Quiet

variable {x : Parser α}

/-- What is made is made by what follows. -/
theorem bind {Q : β → Tally → Prop} {g : α → Parser β} (hx : Quiet x)
    (hg : ∀ a, Numbers c Q (g a)) : Numbers c Q (x >>= g) := by
  intro s b u hs h
  obtain ⟨a, t, hxs, hgt⟩ := bind_eq_ok.1 h
  exact hg a t b u ((hx s a t hxs).trans hs) hgt

theorem numbers (hx : Quiet x) {P : α → Tally → Prop} (hP : ∀ a, P a c) : Numbers c P x := by
  intro s a t hs hxs
  rw [hx s a t hxs, hs]
  exact hP a

theorem of_numbers (hx : ∀ c, Numbers c (fun _ d => d = c) x) : Quiet x :=
  fun s a t hxs => hx s.tally s a t rfl hxs

end Quiet

/-- An invariant of a loop. -/
theorem numbers_iterate {P : α → Tally → Prop} {step : α → Parser (Option α)}
    (hstep : ∀ a c, P a c → Numbers c (fun r d => P (r.getD a) d) (step a)) (n : Nat) {a : α}
    (ha : P a c) : Numbers c P (iterate step n a) := by
  induction n generalizing a c with
  | zero => exact numbers_pure ha
  | succ n ih =>
    rw [iterate]
    refine (hstep a c ha).bind fun r d hr => ?_
    cases r with
    | none => exact numbers_pure hr
    | some b => exact ih hr

/-! ### Basic readers -/

theorem quiet_peek : Quiet peek := by
  rintro s _ _ ⟨⟩
  rfl

theorem quiet_peekKind : Quiet peekKind := by
  rintro s _ _ ⟨⟩
  rfl

theorem quiet_peekNextKind : Quiet peekNextKind := by
  rintro s _ _ ⟨⟩
  rfl

theorem quiet_intern (text : String) : Quiet (intern text) := by
  rintro s _ _ ⟨⟩
  rfl

theorem quiet_spanFrom (start : Span) : Quiet (spanFrom start) := by
  rintro s _ _ ⟨⟩
  rfl

theorem quiet_advance : Quiet advance := by
  intro s a t h
  unfold advance at h
  split at h
  · cases h; rfl
  · split at h
    · cases h; rfl
    · cases h; rfl

theorem quiet_accept (kind : Kind) : Quiet (accept kind) :=
  .of_numbers fun _ => quiet_peekKind.bind fun _ =>
    .ite (quiet_advance.bind fun _ => numbers_pure rfl) (numbers_pure rfl)

theorem quiet_expect (kind : Kind) (what : Expected) : Quiet (expect kind what) :=
  .of_numbers fun _ => quiet_peek.bind fun _ =>
    .ite (quiet_advance.numbers fun _ => rfl) (numbers_failAt _ _)

theorem quiet_identifier (what : Expected) : Quiet (identifier what) :=
  .of_numbers fun _ => (quiet_expect _ _).bind fun _ => (quiet_intern _).bind fun _ =>
    numbers_pure rfl

theorem quiet_parameter (found : List String) : Quiet (parameter found) :=
  .of_numbers fun _ => .ite (quiet_peek.bind fun _ => numbers_failAt _ _)
    ((quiet_identifier _).numbers fun _ => rfl)

theorem quiet_internText (value : Literal) : Quiet (internText value) := by
  unfold internText
  split
  · exact quiet_intern _
  · exact .of_numbers fun _ => numbers_pure rfl

/-- After what is below it, the node of an expression is made, unless it is an assignment. -/
theorem numbers_newExpr {slots : List Slot} (h : Made c slots d) (span : Span) :
    Numbers d (fun m d' => ∀ e : Expr, e.mark = m → e.slots = slots ++ [.node (.expr e)] →
      e.left? = none → Made c e.slots d') (newExpr span) := by
  rintro s _ _ rfl ⟨⟩ e hm he hleft
  rw [he]
  exact h.append (.expr (by rw [hm]; rfl) hleft)

/-- After what is below it, the node of a statement is made. -/
theorem numbers_newStmt {slots : List Slot} (h : Made c slots d) (start : Span) :
    Numbers d (fun m d' => ∀ s : Stmt, s.mark = m → s.slots = slots ++ [.node (.stmt s)] →
      Made c s.slots d') (newStmt start) := by
  rintro t _ _ rfl ⟨⟩ s hm hs
  rw [hs]
  exact h.append (.stmt (by rw [hm]; rfl))

/-! ### Lists -/

/-- The readers that are entered again number nodes in order. -/
structure Entry.Numbers (g : Entry) : Prop where
  expression : ∀ c, Parser.Numbers c (Expr.InOrder c) g.expression
  unary : ∀ c, Parser.Numbers c (Expr.InOrder c) g.unary
  declaration : ∀ c, Parser.Numbers c (Stmt.InOrder c) g.declaration

/-- One more expression, where the expressions before it are last first. -/
theorem numbered_each {found : List Expr} {e : Expr} (h : Made b (slotsEach found.reverse) c)
    (he : Made c e.slots d) : Made b (slotsEach (e :: found).reverse) d := by
  rw [List.reverse_cons, slotsEach_append]
  exact h.append (by simpa [slotsEach] using he)

/-- One more statement, where the statements before it are last first. -/
theorem numbered_all {found : List Stmt} {s : Stmt} (h : Made b (slotsAll found.reverse) c)
    (hs : Made c s.slots d) : Made b (slotsAll (s :: found).reverse) d := by
  rw [List.reverse_cons, slotsAll_append]
  exact h.append (by simpa [slotsAll] using hs)

/-- `P` is about the items so far, last first. -/
theorem numbers_commaList {P : List α → Tally → Prop} {g : Entry} {item : List α → Parser α}
    (hitem : ∀ found c, P found c → Numbers c (fun a d => P (a :: found) d) (item found))
    (hnil : P [] c) : Numbers c (fun items d => P items.reverse d) (commaList g item) := by
  refine (hitem [] c hnil).bind fun first d hfirst => ?_
  refine (numbers_iterate (P := P) (fun found d hfound => ?_) g.bound hfirst).bind
    fun items d hitems => numbers_pure (by simpa using hitems)
  refine (quiet_accept .comma).bind fun _ => .ite ?_ (numbers_pure hfound)
  exact (hitem found d hfound).bind fun a d ha => numbers_pure ha

section Readers

variable {g : Entry} (hg : g.Numbers) {c : Tally}

theorem quiet_parameters : Quiet (commaList g parameter) := by
  refine .of_numbers fun c => ?_
  exact numbers_commaList (P := fun _ d => d = c)
    (fun found d hd => (quiet_parameter found).numbers fun _ => hd) rfl

theorem numbers_literal (t : Token) (value : Literal) :
    Numbers c (Expr.InOrder c) (literal t value) :=
  (quiet_internText value).bind fun _ => quiet_advance.bind fun _ =>
    (numbers_newExpr .nil t.span).bind fun _ _ hm => numbers_pure (hm _ rfl rfl rfl)

include hg

theorem numbers_blockBody : Numbers c (fun ss d => Made c (slotsAll ss) d) (blockBody g) := by
  refine (numbers_iterate (P := fun ss d => Made c (slotsAll ss.reverse) d)
    (fun found d hfound => ?_) g.bound .nil).bind fun found d hfound => ?_
  · refine quiet_peekKind.bind fun _ => .ite (numbers_pure hfound) ?_
    exact (hg.declaration d).bind fun s d hs => numbers_pure (numbered_all hfound hs)
  · exact (quiet_expect _ _).bind fun _ => numbers_pure hfound

theorem numbers_functionRest :
    Numbers c (fun r d => Made c (slotsAll r.2) d) (functionRest g) := by
  refine (quiet_expect _ _).bind fun _ => quiet_peekKind.bind fun _ => ?_
  rw [ite_bind]
  refine (Numbers.ite (P := fun _ d => d = c) (numbers_pure rfl)
    (quiet_parameters.numbers fun _ => rfl)).bind ?_
  rintro params _ rfl
  refine (quiet_expect _ _).bind fun _ => (quiet_expect _ _).bind fun _ => ?_
  exact (numbers_blockBody hg).bind fun body d hbody => numbers_pure hbody

/-! ### Expressions -/

theorem numbers_primary : Numbers c (Expr.InOrder c) (primary g) := by
  refine quiet_peek.bind fun t => ?_
  split
  · refine (quiet_identifier _).bind fun x => ?_
    exact (numbers_newExpr .nil _).bind fun _ _ hm => numbers_pure (hm _ rfl rfl rfl)
  · refine quiet_advance.bind fun _ => (hg.expression c).bind fun e d he => ?_
    refine (quiet_expect _ _).bind fun _ => (quiet_spanFrom _).bind fun _ => ?_
    exact (numbers_newExpr he _).bind fun _ _ hm => numbers_pure (hm _ rfl rfl rfl)
  · refine quiet_advance.bind fun _ => (numbers_functionRest hg).bind fun r d hr => ?_
    refine (quiet_spanFrom _).bind fun _ => ?_
    exact (numbers_newExpr hr _).bind fun _ _ hm => numbers_pure (hm _ rfl rfl rfl)
  · split
    · exact numbers_literal t _
    · exact numbers_failAt _ _

theorem numbers_arguments : Numbers c (fun es d => Made c (slotsEach es) d) (arguments g) := by
  refine quiet_peekKind.bind fun _ => ?_
  rw [ite_bind]
  have hlist : Numbers c (fun es d => Made c (slotsEach es) d)
      (commaList g fun _ => g.expression) := by
    refine (numbers_commaList (P := fun es d => Made c (slotsEach es.reverse) d)
      (fun found d hfound => ?_) .nil).mono fun es d hes => by simpa using hes
    exact (hg.expression d).mono fun e d he => numbered_each hfound he
  refine (Numbers.ite (numbers_pure .nil) hlist).bind fun es d hes => ?_
  exact (quiet_expect _ _).bind fun _ => numbers_pure hes

/-- What follows an expression that was made from the counts `b` on. -/
theorem numbers_suffix {e : Expr} (he : Made b e.slots c) :
    Numbers c (fun r d => Made b (r.getD e).slots d) (suffix g e) := by
  refine (quiet_accept _).bind fun _ => .ite ?_ ?_
  · refine (numbers_arguments hg).bind fun args d hargs => (quiet_spanFrom _).bind fun _ => ?_
    exact (numbers_newExpr (he.append hargs) _).bind fun m _ hm =>
      numbers_pure (hm (.call m e args) rfl rfl rfl)
  · refine (quiet_accept _).bind fun _ => .ite ?_ (numbers_pure he)
    refine (quiet_identifier _).bind fun x => (quiet_spanFrom _).bind fun _ => ?_
    exact (numbers_newExpr he _).bind fun m _ hm => numbers_pure (hm (.get m e x) rfl rfl rfl)

theorem numbers_call : Numbers c (Expr.InOrder c) (call g) :=
  (numbers_primary hg).bind fun _ _ he =>
    numbers_iterate (fun _ _ he => numbers_suffix hg he) g.bound he

theorem numbers_unary : Numbers c (Expr.InOrder c) (unary g) := by
  refine quiet_peekKind.bind fun kind => ?_
  split
  · refine quiet_advance.bind fun t => (hg.unary c).bind fun e d he => ?_
    exact (numbers_newExpr he _).bind fun _ _ hm => numbers_pure (hm _ rfl rfl rfl)
  · exact numbers_call hg

omit hg

theorem numbers_chainStep (level : Level) {operand : Parser Expr}
    (ho : ∀ c, Numbers c (Expr.InOrder c) operand) {left : Expr} (hl : Made b left.slots c) :
    Numbers c (fun r d => Made b (r.getD left).slots d) (chainStep level operand left) := by
  refine quiet_peekKind.bind fun kind => ?_
  split
  · next op _ =>
    refine quiet_advance.bind fun _ => (ho c).bind fun right d hr => ?_
    refine (numbers_newExpr (hl.append hr) _).bind fun m _ hm => numbers_pure ?_
    cases op with
    | binary op => exact hm (.binary m left op right) rfl rfl rfl
    | logical op => exact hm (.logical m left op right) rfl rfl rfl
  · exact numbers_pure hl

include hg

theorem numbers_chain (levels : List Level) (c : Tally) :
    Numbers c (Expr.InOrder c) (chain g levels) := by
  induction levels generalizing c with
  | nil => exact numbers_unary hg
  | cons level levels ih =>
    exact (ih c).bind fun _ _ he =>
      numbers_iterate (fun _ _ he => numbers_chainStep level ih he) g.bound he

omit hg

/-- The target is no node any more, but its place stays taken. -/
theorem numbers_assign (equals : Token) {target value : Expr} (ht : Made b target.slots c)
    (hv : Made c value.slots d) : Numbers d (Expr.InOrder b) (assign equals target value) := by
  unfold assign
  split
  · next m x =>
    rintro s _ _ rfl ⟨⟩
    exact Made.assign (l := []) ht hv rfl rfl fun hnumber =>
      ⟨_, rfl, congrArg (fun i => some (LeftSide.mk i none x)) hnumber.symm⟩
  · next m object x =>
    rintro s _ _ rfl ⟨⟩
    exact Made.assign ht hv rfl rfl fun hnumber =>
      ⟨_, rfl, congrArg (fun i => some (LeftSide.mk i (some object) x)) hnumber.symm⟩
  · exact numbers_failAt _ _

include hg

theorem numbers_assignment : Numbers c (Expr.InOrder c) (assignment g) := by
  refine (numbers_chain hg _ c).bind fun left d hl => quiet_peekKind.bind fun _ => .ite ?_ ?_
  · refine quiet_advance.bind fun equals => (hg.expression d).bind fun value d' hv => ?_
    exact numbers_assign equals hl hv
  · exact numbers_pure hl

/-! ### Statements -/

theorem numbers_operand? : Numbers c (fun e d => Made c (slotsOption e) d) (operand? g) :=
  quiet_peekKind.bind fun _ => .ite (numbers_pure .nil) ((hg.expression c).map fun _ _ he => he)

omit hg in
/-- The end of a statement: a semicolon, and the mark of its node. -/
theorem numbers_endStmt {slots : List Slot} (h : Made c slots d) (start : Span)
    (what : Expected) {s : Mark → Stmt} (hmark : ∀ m, (s m).mark = m)
    (hs : ∀ m, (s m).slots = slots ++ [.node (.stmt (s m))]) :
    Numbers d (Stmt.InOrder c) (do
      let _ ← expect .semicolon what
      return s (← newStmt start)) :=
  (quiet_expect _ _).bind fun _ => (numbers_newStmt h start).bind fun m _ hm =>
    numbers_pure (hm (s m) (hmark m) (hs m))

theorem numbers_varDecl (start : Span) : Numbers c (Stmt.InOrder c) (varDecl g start) := by
  refine (quiet_identifier _).bind fun x => (quiet_accept _).bind fun _ => ?_
  rw [ite_bind]
  refine (Numbers.ite (P := fun e d => Made c (slotsOption e) d) ?_ (numbers_pure .nil)).bind
    fun e d he => numbers_endStmt he start _ (fun _ => rfl) fun _ => rfl
  exact (hg.expression c).map fun _ _ he => he

theorem numbers_funDecl (start : Span) : Numbers c (Stmt.InOrder c) (funDecl g start) := by
  refine (quiet_identifier _).bind fun x => (numbers_functionRest hg).bind fun r d hr => ?_
  exact (numbers_newStmt hr start).bind fun _ _ hm => numbers_pure (hm _ rfl rfl)

omit hg in
theorem numbers_classDecl (start : Span) : Numbers c (Stmt.InOrder c) (classDecl start) := by
  refine (quiet_identifier _).bind fun x => (quiet_expect _ _).bind fun _ => ?_
  refine (quiet_expect _ _).bind fun _ => ?_
  exact (numbers_newStmt .nil start).bind fun _ _ hm => numbers_pure (hm _ rfl rfl)

theorem numbers_print (start : Span) : Numbers c (Stmt.InOrder c) (print g start) :=
  (hg.expression c).bind fun _ _ he => numbers_endStmt he start _ (fun _ => rfl) fun _ => rfl

theorem numbers_block (start : Span) : Numbers c (Stmt.InOrder c) (block g start) :=
  (numbers_blockBody hg).bind fun _ _ hbody => (numbers_newStmt hbody start).bind fun _ _ hm =>
    numbers_pure (hm _ rfl rfl)

theorem numbers_ifElse (start : Span) : Numbers c (Stmt.InOrder c) (ifElse g start) := by
  refine (quiet_expect _ _).bind fun _ => (hg.expression c).bind fun condition d hc => ?_
  refine (quiet_expect _ _).bind fun _ => (hg.declaration d).bind fun t d ht => ?_
  refine (quiet_accept _).bind fun _ => ?_
  rw [ite_bind]
  refine (Numbers.ite (P := fun e d' => Made d (slotsElse e) d') ?_ (numbers_pure .nil)).bind
    fun e d' he => ?_
  · exact (hg.declaration d).map fun _ _ he => he
  · exact (numbers_newStmt ((hc.append ht).append he) start).bind fun _ _ hm =>
      numbers_pure (hm _ rfl rfl)

theorem numbers_whileDo (start : Span) : Numbers c (Stmt.InOrder c) (whileDo g start) := by
  refine (quiet_expect _ _).bind fun _ => (hg.expression c).bind fun condition d hc => ?_
  refine (quiet_expect _ _).bind fun _ => (hg.declaration d).bind fun body d hb => ?_
  exact (numbers_newStmt (hc.append hb) start).bind fun _ _ hm => numbers_pure (hm _ rfl rfl)

theorem numbers_returns (start : Span) : Numbers c (Stmt.InOrder c) (returns g start) :=
  (numbers_operand? hg).bind fun _ _ he => numbers_endStmt he start _ (fun _ => rfl) fun _ => rfl

theorem numbers_breaks (start : Span) : Numbers c (Stmt.InOrder c) (breaks g start) :=
  (numbers_operand? hg).bind fun _ _ he => numbers_endStmt he start _ (fun _ => rfl) fun _ => rfl

theorem numbers_expression (start : Span) :
    Numbers c (Stmt.InOrder c) (Parser.expression g start) :=
  (numbers_assignment hg).bind fun _ _ he => numbers_endStmt he start _ (fun _ => rfl) fun _ => rfl

theorem numbers_afterWord? {kind next : Kind} {p : Span → Parser Stmt}
    (h : afterWord? g kind next = some p) (start : Span) :
    Numbers c (Stmt.InOrder c) (p start) := by
  unfold afterWord? at h
  split at h
  · cases h; exact numbers_varDecl hg start
  · cases h; exact numbers_classDecl start
  · split at h
    · cases h; exact numbers_funDecl hg start
    · cases h
  · cases h; exact numbers_print hg start
  · cases h; exact numbers_block hg start
  · cases h; exact numbers_ifElse hg start
  · cases h; exact numbers_whileDo hg start
  · cases h; exact numbers_returns hg start
  · cases h; exact numbers_breaks hg start
  · cases h

theorem numbers_declaration : Numbers c (Stmt.InOrder c) (declaration g) := by
  refine quiet_peek.bind fun t => quiet_peekNextKind.bind fun next => ?_
  split
  · next p hp => exact quiet_advance.bind fun _ => numbers_afterWord? hg hp t.span
  · exact numbers_expression hg t.span

end Readers

/-! ### Programs -/

theorem entry_numbers (n : Nat) : (entry n).Numbers := by
  induction n with
  | zero =>
    have stop {α : Type} {P : α → Tally → Prop} (c : Tally) :
        Numbers c P (do failAt (.expected .expression) (← peek)) :=
      quiet_peek.bind fun _ => numbers_failAt _ _
    exact ⟨fun c => stop c, fun c => stop c, fun c => stop c⟩
  | succ n ih =>
    exact ⟨fun _ => numbers_assignment ih, fun _ => numbers_unary ih,
      fun _ => numbers_declaration ih⟩

theorem program_numbers : Numbers c (fun ss d => Made c (slotsAll ss) d) program := by
  intro s
  refine Numbers.bind (P := fun ss d => Made c (slotsAll ss.reverse) d)
    (numbers_iterate (fun found d hfound => ?_) _ .nil)
    (fun found d hfound => numbers_pure hfound) s
  refine quiet_peekKind.bind fun _ => .ite (numbers_pure hfound) ?_
  exact (numbers_declaration (entry_numbers _)).bind fun s d hs =>
    numbers_pure (numbered_all hfound hs)

end Parser

/-- The nodes of a program are made in order, and its counts and targets are those of all that was
made. -/
theorem parse_made {names : NameTable} {tokens : List Token} {program : Program}
    (h : (parse names tokens).1 = .ok program) :
    Made ⟨⟨0, 0⟩, []⟩ (slotsAll program.statements)
      ⟨⟨program.exprCount, program.stmtCount⟩, program.targets.reverse⟩ := by
  rw [parse] at h
  split at h
  · next ss t hss =>
    cases h
    rw [List.reverse_reverse]
    exact Parser.program_numbers (.ofTokens names tokens) ss t rfl hss
  · cases h

theorem parse_numbered {names : NameTable} {tokens : List Token} {program : Program}
    (h : (parse names tokens).1 = .ok program) :
    Numbered ⟨0, 0⟩ (slotsAll program.statements) ⟨program.exprCount, program.stmtCount⟩ :=
  (parse_made h).numbered

/-- The targets of a program are the left sides of its assignments, in the order of these. -/
theorem parse_targets {names : NameTable} {tokens : List Token} {program : Program}
    (h : (parse names tokens).1 = .ok program) :
    program.targets.map Expr.asLeft? =
      ((slotsAll program.statements).filterMap Slot.left?).map some := by
  have htargets := congrArg List.reverse (parse_made h).targets
  simpa using htargets

end Lox
