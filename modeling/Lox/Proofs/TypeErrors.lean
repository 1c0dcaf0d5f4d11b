import Lox.Proofs.Equality
import Lox.Proofs.IntegerOperators
import Lox.Proofs.Operators

/-!
# Type errors

Whether an operator takes its operands is decided by their sorts, before anything else: no value
hides a type error or brings one about.

* `UnaryOp.takes`, `BinaryOp.takes`: the table of the sorts that operators take;
* `BinaryOp.apply_of_not_takes`, `BinaryOp.returns_of_takes`: on other operands an operator ends
  with a type error, and on these with a result or a fault of another category;
* `type_errors_come_first`: both, for all operators, with the widening of mixed operands.
-/

namespace Lox

/-- Whether an operator takes an operand of a sort. -/
def UnaryOp.takes (op : UnaryOp) (t : ValueType) : Bool :=
  match op with
  | negate => t.isNumeric
  | not => t = .bool || t.isNumeric
  | complement => t = .int

/-- Whether an operator takes operands of two sorts. -/
def BinaryOp.takes (op : BinaryOp) (s t : ValueType) : Bool :=
  match op with
  | eq | notEq => s.comparable t
  | add => (s.isNumeric && t.isNumeric) || (s = .str && t = .str)
  | mul => (s.isNumeric && t.isNumeric) || (s = .str && t = .int)
  | bitAnd | bitOr | bitXor | shiftLeft | shiftRight => s = .int && t = .int
  | sub | div | less | lessEq | greater | greaterEq => s.isNumeric && t.isNumeric

theorem Value.of_type_str {v : Value} (h : v.type = .str) : ∃ s, v = .str s := by
  cases v with
  | str s => exact ⟨s, rfl⟩
  | _ => cases h

theorem Value.of_type_int {v : Value} (h : v.type = .int) : ∃ n, v = .int n := by
  cases v with
  | int n => exact ⟨n, rfl⟩
  | _ => cases h

/-! ### Operators before an operand -/

theorem UnaryOp.apply_of_not_takes {op : UnaryOp} {v : Value} (h : op.takes v.type = false) :
    op.apply v = .error (.operandUnfit op v.type) := by
  unfold apply
  split
  · cases h
  · cases h
  · cases h
  · cases h
  · cases h
  · cases h
  · rfl

theorem UnaryOp.error_of_takes {op : UnaryOp} {v : Value} {fault : Fault}
    (ht : op.takes v.type) (h : op.apply v = .error fault) :
    op = .negate ∧ v.type = .int ∧ fault = .integerOverflow .negation := by
  cases op with
  | negate =>
    rcases Value.of_isNumeric ht with ⟨n, rfl⟩ | ⟨x, rfl⟩
    · refine ⟨rfl, rfl, ?_⟩
      have hchecked : checked .negation (-n.toInt) = .error fault := h
      unfold checked at hchecked
      split at hchecked
      · cases hchecked
      · exact (Except.error.inj hchecked).symm
    · cases h
  | not => cases v <;> first | exact absurd ht Bool.false_ne_true | cases h
  | complement => cases v <;> first | exact absurd ht Bool.false_ne_true | cases h

/-! ### Operators between two operands -/

namespace BinaryOp

theorem isSome_onFloats? (op : BinaryOp) (a b : Float) :
    (op.onFloats? a b).isSome = op.takes .float .float := by
  cases op <;> rfl

theorem takes_int_int (op : BinaryOp) : op.takes .int .int = true := by
  cases op <;> rfl

theorem takes_int_float (op : BinaryOp) : op.takes .int .float = op.takes .float .float := by
  cases op <;> rfl

theorem takes_float_int (op : BinaryOp) : op.takes .float .int = op.takes .float .float := by
  cases op <;> rfl

theorem apply_int_float (op : BinaryOp) (a : Int64) (b : Float) :
    op.apply (.int a) (.float b) =
      (op.onFloats? (widen a) b).getD (.error (.operandMismatch op .int .float)) := by
  cases op <;> rfl

theorem apply_float_int (op : BinaryOp) (a : Float) (b : Int64) :
    op.apply (.float a) (.int b) =
      (op.onFloats? a (widen b)).getD (.error (.operandMismatch op .float .int)) := by
  cases op <;> rfl

theorem apply_floats (op : BinaryOp) (a b : Float) :
    op.apply (.float a) (.float b) =
      (op.onFloats? a b).getD (.error (.operandMismatch op .float .float)) := by
  cases op <;> rfl

variable {op : BinaryOp} {v w : Value}

theorem exists_onFloats? (h : op.takes .float .float) (a b : Float) :
    ∃ r, op.onFloats? a b = some r :=
  Option.isSome_iff_exists.1 ((op.isSome_onFloats? a b).trans h)

theorem onFloats?_eq_none (h : op.takes .float .float = false) (a b : Float) :
    op.onFloats? a b = none := by
  rw [← Option.isNone_iff_eq_none, ← Option.isSome_eq_false_iff, isSome_onFloats?, h]

theorem returns_getD_onFloats? (h : op.takes .float .float) (a b : Float)
    (r : Except Fault Value) : Returns op.Fails ((op.onFloats? a b).getD r) := by
  obtain ⟨result, hresult⟩ := exists_onFloats? h a b
  rw [hresult, Option.getD_some]
  exact returns_onFloats hresult

theorem apply_of_not_takes (h : op.takes v.type w.type = false) :
    op.apply v w = .error (.operandMismatch op v.type w.type) := by
  unfold apply
  split
  · rw [Value.equal?_eq_none h]
    rfl
  · rw [Value.equal?_eq_none h]
    rfl
  · split
    · exact absurd (h.symm.trans op.takes_int_int) Bool.false_ne_true
    · rw [onFloats?_eq_none (op.takes_int_float.symm.trans h), Option.getD_none]
    · rw [onFloats?_eq_none (op.takes_float_int.symm.trans h), Option.getD_none]
    · rw [onFloats?_eq_none h, Option.getD_none]
    · split
      · next hadd =>
        subst hadd
        cases h
      · rfl
    · split
      · next hmul =>
        subst hmul
        cases h
      · rfl
    · rfl

/-- The rows of the table. -/
theorem takes_cases {s t : ValueType} (h : op.takes s t) :
    (s.isNumeric ∧ t.isNumeric) ∨ ((op = .eq ∨ op = .notEq) ∧ s = t) ∨
      (op = .add ∧ s = .str ∧ t = .str) ∨ (op = .mul ∧ s = .str ∧ t = .int) := by
  cases op with
  | eq | notEq =>
    simp only [takes, ValueType.comparable, Bool.or_eq_true, Bool.and_eq_true,
      decide_eq_true_eq] at h
    rcases h with h | h
    · exact .inr (.inl ⟨by decide, h⟩)
    · exact .inl h
  | add | mul =>
    simp only [takes, Bool.or_eq_true, Bool.and_eq_true, decide_eq_true_eq] at h
    rcases h with h | h
    · exact .inl h
    · simp [h]
  | bitAnd | bitOr | bitXor | shiftLeft | shiftRight =>
    simp only [takes, Bool.and_eq_true, decide_eq_true_eq] at h
    obtain ⟨rfl, rfl⟩ := h
    exact .inl ⟨rfl, rfl⟩
  | _ =>
    simp only [takes, Bool.and_eq_true] at h
    exact .inl h

theorem returns_of_numeric (h : op.takes v.type w.type) (hv : v.type.isNumeric)
    (hw : w.type.isNumeric) : Returns op.Fails (op.apply v w) := by
  rcases Value.of_isNumeric hv with ⟨a, rfl⟩ | ⟨a, rfl⟩ <;>
    rcases Value.of_isNumeric hw with ⟨b, rfl⟩ | ⟨b, rfl⟩
  · rw [apply_ints]
    exact returns_onInts op a b
  · rw [apply_int_float]
    exact returns_getD_onFloats? (op.takes_int_float.symm.trans h) _ _ _
  · rw [apply_float_int]
    exact returns_getD_onFloats? (op.takes_float_int.symm.trans h) _ _ _
  · rw [apply_floats]
    exact returns_getD_onFloats? h _ _ _

theorem returns_of_takes (h : op.takes v.type w.type) : Returns op.Fails (op.apply v w) := by
  rcases takes_cases h with ⟨hv, hw⟩ | ⟨hop, htype⟩ | ⟨rfl, hv, hw⟩ | ⟨rfl, hv, hw⟩
  · exact returns_of_numeric h hv hw
  · have hequal := Value.equal?_of_type_eq htype
    rcases hop with rfl | rfl
    · rw [apply_eq_ok.2 ⟨_, hequal, rfl⟩]
      exact ⟨trivial, trivial⟩
    · rw [apply_notEq_ok.2 ⟨_, hequal, rfl⟩]
      exact ⟨trivial, trivial⟩
  · obtain ⟨s, rfl⟩ := Value.of_type_str hv
    obtain ⟨t, rfl⟩ := Value.of_type_str hw
    show Returns _ (concatenated s t)
    rw [concatenated_eq]
    exact returns_ofShort ⟨.inl rfl, nofun⟩ _
  · obtain ⟨s, rfl⟩ := Value.of_type_str hv
    obtain ⟨n, rfl⟩ := Value.of_type_int hw
    show Returns _ (repeated s n)
    rw [repeated_eq]
    exact returns_ofShort ⟨.inr rfl, nofun⟩ _

theorem fails_of_takes {fault : Fault} (h : op.takes v.type w.type)
    (herror : op.apply v w = .error fault) : op.Fails fault := by
  have hreturns := returns_of_takes h
  rw [herror] at hreturns
  exact hreturns

theorem apply_eq_mismatch {op' : BinaryOp} {s t : ValueType} :
    op.apply v w = .error (.operandMismatch op' s t) ↔
      op.takes v.type w.type = false ∧ op' = op ∧ s = v.type ∧ t = w.type := by
  cases h : op.takes v.type w.type with
  | false =>
    rw [apply_of_not_takes h]
    simp [eq_comm]
  | true =>
    refine iff_of_false (fun herror => ?_) nofun
    exact (fails_of_takes h herror).2 rfl

end BinaryOp

theorem UnaryOp.apply_eq_unfit {op op' : UnaryOp} {v : Value} {s : ValueType} :
    op.apply v = .error (.operandUnfit op' s) ↔
      op.takes v.type = false ∧ op' = op ∧ s = v.type := by
  cases h : op.takes v.type with
  | false =>
    rw [apply_of_not_takes h]
    simp [eq_comm]
  | true =>
    refine iff_of_false (fun herror => ?_) nofun
    cases (error_of_takes h herror).2.2

/-- **Type errors come first and depend on the sorts only.** An operator ends with a type error,
which names the operator and the sorts of its operands, exactly on the sorts that it does not take.
Otherwise its faults are its own ones about values, and a mixed pair of numbers counts as the two
floats. -/
theorem type_errors_come_first :
    (∀ (op : BinaryOp) v w op' s t, op.apply v w = .error (.operandMismatch op' s t) ↔
      op.takes v.type w.type = false ∧ op' = op ∧ s = v.type ∧ t = w.type) ∧
    (∀ (op : BinaryOp) v w v' w', v.type.name = v'.type.name → w.type.name = w'.type.name →
      ∀ op' s t, op.apply v w = .error (.operandMismatch op' s t) ↔
        op.apply v' w' = .error (.operandMismatch op' s t)) ∧
    (∀ (op : BinaryOp) v w fault, op.takes v.type w.type → op.apply v w = .error fault →
      op.Raises fault ∧ fault.category ≠ .type) ∧
    (∀ (op : BinaryOp) n x, op.takes .int .float →
      op.apply (.int n) (.float x) = op.apply (.float (widen n)) (.float x)) ∧
    (∀ (op : BinaryOp) x n, op.takes .float .int →
      op.apply (.float x) (.int n) = op.apply (.float x) (.float (widen n))) ∧
    (∀ (op : UnaryOp) v op' s, op.apply v = .error (.operandUnfit op' s) ↔
      op.takes v.type = false ∧ op' = op ∧ s = v.type) ∧
    (∀ (op : UnaryOp) v v', v.type.name = v'.type.name →
      ∀ op' s, op.apply v = .error (.operandUnfit op' s) ↔
        op.apply v' = .error (.operandUnfit op' s)) ∧
    (∀ (op : UnaryOp) v fault, op.takes v.type → op.apply v = .error fault →
      op = .negate ∧ v.type = .int ∧ fault = .integerOverflow .negation) := by
  refine ⟨fun op v w op' s t => BinaryOp.apply_eq_mismatch, fun op v w v' w' hv hw op' s t => ?_,
    fun op v w fault => BinaryOp.fails_of_takes, fun op n x h => ?_, fun op x n h => ?_,
    fun op v op' s => UnaryOp.apply_eq_unfit, fun op v v' hv op' s => ?_,
    fun op v fault => UnaryOp.error_of_takes⟩
  · rw [BinaryOp.apply_eq_mismatch, BinaryOp.apply_eq_mismatch, ValueType.name_inj.1 hv,
      ValueType.name_inj.1 hw]
  · obtain ⟨r, hr⟩ := BinaryOp.exists_onFloats? (op.takes_int_float.symm.trans h) (widen n) x
    rw [op.apply_int_float, op.apply_floats, hr, Option.getD_some, Option.getD_some]
  · obtain ⟨r, hr⟩ := BinaryOp.exists_onFloats? (op.takes_float_int.symm.trans h) x (widen n)
    rw [op.apply_float_int, op.apply_floats, hr, Option.getD_some, Option.getD_some]
  · rw [UnaryOp.apply_eq_unfit, UnaryOp.apply_eq_unfit, ValueType.name_inj.1 hv]

example : BinaryOp.div.apply (.str "1") (.int 0) = .error (.operandMismatch .div .str .int) := rfl

end Lox
