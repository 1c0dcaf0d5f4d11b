import Lox.Evaluation
import Lox.Proofs.Functions

/-!
# What operators result in

The result of an operator is data, no text of which is too long, and a fault of it is one of its
own. Both hold of the built-in functions too.

* `Value.Plain`: values that are neither functions nor objects;
* `Short`: the texts that operators make, with what `+` and `*` make of texts;
* `UnaryOp.Raises`, `BinaryOp.Raises`, `Builtin.Raises`: the faults that each may end with, and
  `BinaryOp.Fails`: those that the sorts of the operands do not tell;
* `Returns`: a plain value or one of certain faults, with a lemma for each operator.
-/

namespace Lox

/-- A value that is neither a function of a program nor an object, so that nothing can be reached
from it. -/
def Value.Plain : Value → Prop
  | function _ _ | object _ _ => False
  | _ => True

theorem Value.Plain.each {P : Function → Prop} {v : Value} (h : v.Plain) : v.Each P := by
  cases v with
  | function => cases h
  | _ => trivial

theorem Literal.plain_value (v : Literal) : v.value.Plain := by
  cases v <;> trivial

/-! ### Texts -/

/-- A text that is not too long. -/
def Short (text : String) : Prop := text.utf8ByteSize ≤ maxStringBytes

instance (text : String) : Decidable (Short text) := inferInstanceAs (Decidable (_ ≤ _))

/-- A text, if it is not too long. -/
def ofShort (text : String) : Except Fault Value :=
  if Short text then .ok (.str text) else .error .stringTooLong

theorem concatenated_eq (s t : String) : concatenated s t = ofShort (s ++ t) := by
  simp only [concatenated, ofShort, Short, String.utf8ByteSize_append]

theorem appendTimes_eq (t s : String) (n : Nat) :
    appendTimes t s n = t ++ String.join (List.replicate n s) := by
  induction n generalizing t with
  | zero => simp [appendTimes]
  | succ n ih => rw [appendTimes, ih, List.replicate_succ, String.join_cons, String.append_assoc]

theorem utf8ByteSize_join_replicate (s : String) (n : Nat) :
    (String.join (List.replicate n s)).utf8ByteSize = s.utf8ByteSize * n := by
  induction n with
  | zero => simp
  | succ n ih =>
    rw [List.replicate_succ, String.join_cons, String.utf8ByteSize_append, ih, Nat.mul_succ,
      Nat.add_comm]

/-- Nothing becomes of the empty text. -/
theorem join_replicate_empty (n : Nat) : String.join (List.replicate n "") = "" := by
  apply String.utf8ByteSize_eq_zero_iff.1
  rw [utf8ByteSize_join_replicate, String.utf8ByteSize_empty, Nat.zero_mul]

/-- A product that does not fit into 64 bits is too large for a text anyway. -/
theorem repeated_eq (s : String) (n : Int64) :
    repeated s n = ofShort (String.join (List.replicate n.toInt.toNat s)) := by
  have htext : (if s.isEmpty then "" else appendTimes "" s n.toInt.toNat) =
      String.join (List.replicate n.toInt.toNat s) := by
    rw [appendTimes_eq, String.empty_append]
    split
    · next hs => rw [String.isEmpty_iff.1 hs, join_replicate_empty]
    · rfl
  simp only [repeated, htext, ofShort, Short, utf8ByteSize_join_replicate, checkedProduct]
  by_cases hfits : s.utf8ByteSize * n.toInt.toNat < UInt64.size
  · rw [if_pos hfits]
  · have hlimit : maxStringBytes < UInt64.size := by decide
    rw [if_neg hfits, if_neg (by omega)]

/-! ### Faults -/

/-- The faults of an operator before an operand. -/
def UnaryOp.Raises (op : UnaryOp) : Fault → Prop
  | .operandUnfit op' _ => op' = op
  | .integerOverflow .negation => op = .negate
  | _ => False

/-- The faults of an operator between two operands. -/
def BinaryOp.Raises (op : BinaryOp) : Fault → Prop
  | .operandMismatch op' _ _ => op' = op
  | .divisionByZero => op = .div
  | .shiftOutOfRange _ => op = .shiftLeft ∨ op = .shiftRight
  | .stringTooLong => op = .add ∨ op = .mul
  | .integerOverflow .addition => op = .add
  | .integerOverflow .subtraction => op = .sub
  | .integerOverflow .multiplication => op = .mul
  | _ => False

/-- The faults of an operator between two operands, other than that it does not take them. -/
def BinaryOp.Fails (op : BinaryOp) (fault : Fault) : Prop :=
  op.Raises fault ∧ fault.category ≠ .type

/-- The faults of a built-in function. -/
def Builtin.Raises (builtin : Builtin) : Fault → Prop
  | .notANumber _ _ | .arityMismatch _ _ => builtin = .sqrt
  | _ => False

/-! ### Results -/

/-- A plain value and no text that is too long, or one of certain faults. -/
def Returns (F : Fault → Prop) : Except Fault Value → Prop
  | .ok v => v.Plain ∧ v.Spells Short
  | .error fault => F fault

variable {F G : Fault → Prop}

theorem Returns.mono {r : Except Fault Value} (h : Returns F r) (hFG : ∀ fault, F fault → G fault) :
    Returns G r := by
  cases r with
  | ok v => exact h
  | error fault => exact hFG fault h

theorem returns_checked {operation : Arithmetic} (h : F (.integerOverflow operation)) (n : Int) :
    Returns F (checked operation n) := by
  unfold checked
  split
  · exact ⟨trivial, trivial⟩
  · exact h

theorem returns_shifted (shift : Int64 → Int64 → Int64) {a b : Int64}
    (h : F (.shiftOutOfRange b)) : Returns F (shifted shift a b) := by
  unfold shifted
  split
  · exact ⟨trivial, trivial⟩
  · exact h

theorem returns_ofShort (h : F .stringTooLong) (text : String) : Returns F (ofShort text) := by
  unfold ofShort
  split
  · next hshort => exact ⟨trivial, hshort⟩
  · exact h

theorem UnaryOp.returns_apply (op : UnaryOp) (v : Value) : Returns op.Raises (op.apply v) := by
  unfold apply
  split
  · refine returns_checked ?_ _
    rfl
  · exact ⟨trivial, trivial⟩
  · exact ⟨trivial, trivial⟩
  · exact ⟨trivial, trivial⟩
  · exact ⟨trivial, trivial⟩
  · exact ⟨trivial, trivial⟩
  · rfl

theorem BinaryOp.returns_onInts (op : BinaryOp) (a b : Int64) :
    Returns op.Fails (op.onInts a b) := by
  cases op with
  | add | sub | mul => exact returns_checked ⟨rfl, nofun⟩ _
  | div =>
    show Returns _ (if b = 0 then _ else _)
    split
    · exact ⟨rfl, nofun⟩
    · exact ⟨trivial, trivial⟩
  | shiftLeft => exact returns_shifted _ ⟨.inl rfl, nofun⟩
  | shiftRight => exact returns_shifted _ ⟨.inr rfl, nofun⟩
  | _ => exact ⟨trivial, trivial⟩

theorem BinaryOp.returns_onFloats {op : BinaryOp} {a b : Float} {r : Except Fault Value}
    (h : op.onFloats? a b = some r) : Returns op.Fails r := by
  cases op with
  | div =>
    obtain rfl := Option.some.inj h
    split
    · exact ⟨rfl, nofun⟩
    · exact ⟨trivial, trivial⟩
  | bitAnd | bitOr | bitXor | shiftLeft | shiftRight => cases h
  | _ =>
    obtain rfl := Option.some.inj h
    exact ⟨trivial, trivial⟩

theorem BinaryOp.returns_apply (op : BinaryOp) (v w : Value) :
    Returns op.Raises (op.apply v w) := by
  have mismatch : Returns op.Raises (.error (.operandMismatch op v.type w.type)) := rfl
  have floats (a b : Float) : Returns op.Raises
      ((op.onFloats? a b).getD (.error (.operandMismatch op v.type w.type))) := by
    cases h : op.onFloats? a b with
    | none => exact mismatch
    | some r => exact (returns_onFloats h).mono fun _ hf => hf.1
  unfold apply
  split
  · cases v.equal? w with
    | none => exact mismatch
    | some b => exact ⟨trivial, trivial⟩
  · cases v.equal? w with
    | none => exact mismatch
    | some b => exact ⟨trivial, trivial⟩
  · split
    · exact (returns_onInts _ _ _).mono fun _ hf => hf.1
    · exact floats _ _
    · exact floats _ _
    · exact floats _ _
    · split
      · next h =>
        rw [concatenated_eq]
        exact returns_ofShort (.inl h) _
      · exact mismatch
    · split
      · next h =>
        rw [repeated_eq]
        exact returns_ofShort (.inr h) _
      · exact mismatch
    · exact mismatch

theorem Builtin.returns_apply (builtin : Builtin) (now : Float) (args : List Value) :
    Returns builtin.Raises (builtin.apply now args) := by
  unfold apply
  split
  · exact ⟨trivial, trivial⟩
  · exact ⟨trivial, trivial⟩
  · split
    · exact ⟨trivial, trivial⟩
    · rfl
  · rfl

end Lox
