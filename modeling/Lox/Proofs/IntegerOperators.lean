import Mathlib.Algebra.Order.Ring.Int
import Lox.Value.Operators

/-!
# Operators on integers

The operators on integers of 64 bits compute what they compute on mathematical integers, or fail.

* `Exact`: the result of an operation that fails when it overflows;
* `Shifts`: the result of a shift, which fails when its amount is not below the width;
* `bit`: the bits of an integer in two's complement;
* `BinaryOp.Computes`: what each operator has to result in, said of mathematical integers;
* `exact_on_integers`: that is what the operators result in.
-/

namespace Lox

/-! ### What the results are -/

/-- The integer `n` if 64 bits hold it, or else an overflow. -/
def Exact (operation : Arithmetic) (n : Int) (r : Except Fault Value) : Prop :=
  if -2 ^ 63 ≤ n ∧ n < 2 ^ 63 then ∃ c : Int64, r = .ok (.int c) ∧ c.toInt = n
  else r = .error (.integerOverflow operation)

/-- The only integer of 64 bits that is a shift by `b`, if an integer can be shifted by that. -/
def Shifts (b : Int64) (IsShift : Int → Prop) (r : Except Fault Value) : Prop :=
  if 0 ≤ b.toInt ∧ b.toInt < 64 then
    ∃ c : Int64, r = .ok (.int c) ∧ ∀ d : Int64, IsShift d.toInt ↔ d = c
  else r = .error (.shiftOutOfRange b)

/-- Whether an integer has a bit, in two's complement without an end. -/
def bit (n : Int) (k : Nat) : Bool := n.fdiv (2 ^ k) % 2 = 1

/-- The integer whose 64 bits are made from those of `a` and `b`. -/
def Bitwise (f : Bool → Bool → Bool) (a b : Int64) (r : Except Fault Value) : Prop :=
  ∃ c : Int64, r = .ok (.int c) ∧ ∀ k < 64, bit c.toInt k = f (bit a.toInt k) (bit b.toInt k)

/-- What an operator on integers has to result in. -/
def BinaryOp.Computes (op : BinaryOp) (a b : Int64) (r : Except Fault Value) : Prop :=
  match op with
  | add => Exact .addition (a.toInt + b.toInt) r
  | sub => Exact .subtraction (a.toInt - b.toInt) r
  | mul => Exact .multiplication (a.toInt * b.toInt) r
  | div => (r = .error .divisionByZero ↔ b.toInt = 0) ∧ (b.toInt ≠ 0 → ∃ x, r = .ok (.float x))
  | eq => r = .ok (.bool (a.toInt = b.toInt))
  | notEq => r = .ok (.bool (a.toInt ≠ b.toInt))
  | less => r = .ok (.bool (a.toInt < b.toInt))
  | lessEq => r = .ok (.bool (a.toInt ≤ b.toInt))
  | greater => r = .ok (.bool (a.toInt > b.toInt))
  | greaterEq => r = .ok (.bool (a.toInt ≥ b.toInt))
  | bitAnd => Bitwise (· && ·) a b r
  | bitOr => Bitwise (· || ·) a b r
  | bitXor => Bitwise (· ^^ ·) a b r
  | shiftLeft => Shifts b (fun n => n % 2 ^ 64 = a.toInt * 2 ^ b.toInt.toNat % 2 ^ 64) r
  | shiftRight => Shifts b (fun n => n = a.toInt.fdiv (2 ^ b.toInt.toNat)) r

/-! ### Arithmetic -/

theorem minInt_eq : minInt = -2 ^ 63 := by decide

theorem maxInt_eq : maxInt = 2 ^ 63 - 1 := by decide

theorem exact_checked (operation : Arithmetic) (n : Int) :
    Exact operation n (checked operation n) := by
  have hiff : (minInt ≤ n ∧ n ≤ maxInt) ↔ (-2 ^ 63 ≤ n ∧ n < 2 ^ 63) := by
    rw [minInt_eq, maxInt_eq]
    omega
  unfold Exact checked
  by_cases h : -2 ^ 63 ≤ n ∧ n < 2 ^ 63
  · rw [if_pos h, if_pos (hiff.2 h)]
    exact ⟨.ofInt n, rfl, Int64.toInt_ofInt_of_le h.1 h.2⟩
  · rw [if_neg h, if_neg (mt hiff.1 h)]

/-! ### Shifts -/

/-- Integers of 64 bits that leave one remainder are the same. -/
theorem emod_toInt_inj {a b : Int64} : a.toInt % 2 ^ 64 = b.toInt % 2 ^ 64 ↔ a = b := by
  have ha := a.le_toInt
  have ha' := a.toInt_lt
  have hb := b.le_toInt
  have hb' := b.toInt_lt
  rw [← Int64.toInt_inj]
  omega

/-- An amount below the width is what the operations of the machine shift by. -/
theorem smod_width {b : Int64} (h : 0 ≤ b.toInt ∧ b.toInt < 64) :
    (b.toBitVec.smod 64).toNat = b.toInt.toNat := by
  have hwidth : ((64 : BitVec 64).toInt : Int) = 64 := by decide
  have hsmod : (b.toBitVec.smod 64).toInt = b.toInt := by
    rw [BitVec.toInt_smod, hwidth, Int64.toInt_toBitVec, Int.fmod_eq_emod_of_nonneg _ (by decide)]
    omega
  rw [← hsmod, BitVec.toInt_eq_toNat_cond]
  have := BitVec.toInt_eq_toNat_cond (b.toBitVec.smod 64)
  have := (b.toBitVec.smod 64).isLt
  split
  · rfl
  · omega

theorem emod_toInt_shiftLeft (a : Int64) {b : Int64} (h : 0 ≤ b.toInt ∧ b.toInt < 64) :
    (a <<< b).toInt % 2 ^ 64 = a.toInt * 2 ^ b.toInt.toNat % 2 ^ 64 := by
  have hnat : (a.toBitVec.toNat : Int) % 2 ^ 64 = a.toInt % 2 ^ 64 := by
    rw [← Int64.toInt_toBitVec, BitVec.toInt_eq_toNat_cond]
    split <;> omega
  rw [← Int64.toInt_toBitVec, Int64.toBitVec_shiftLeft, BitVec.shiftLeft_eq', smod_width h,
    BitVec.toInt_shiftLeft, Nat.shiftLeft_eq]
  calc (((a.toBitVec.toNat * 2 ^ b.toInt.toNat : Nat) : Int).bmod (2 ^ 64)) % 2 ^ 64
      = ((a.toBitVec.toNat * 2 ^ b.toInt.toNat : Nat) : Int) % 2 ^ 64 := Int.bmod_emod
    _ = (a.toBitVec.toNat : Int) * 2 ^ b.toInt.toNat % 2 ^ 64 := by
        rw [Int.natCast_mul, Int.natCast_pow]
        rfl
    _ = a.toInt * 2 ^ b.toInt.toNat % 2 ^ 64 := by
        rw [Int.mul_emod, hnat, ← Int.mul_emod]

theorem toInt_shiftRight (a : Int64) {b : Int64} (h : 0 ≤ b.toInt ∧ b.toInt < 64) :
    (a >>> b).toInt = a.toInt.fdiv (2 ^ b.toInt.toNat) := by
  rw [← Int64.toInt_toBitVec, Int64.toBitVec_shiftRight, BitVec.sshiftRight', smod_width h,
    BitVec.toInt_sshiftRight, Int64.toInt_toBitVec]
  rw [Int.shiftRight_eq_div_pow, Int.fdiv_eq_ediv_of_nonneg _ (Int.pow_nonneg (by decide))]
  rw [Int.natCast_pow]
  rfl

theorem shifts_shifted {IsShift : Int → Prop} {shift : Int64 → Int64 → Int64} {a b : Int64}
    (h : 0 ≤ b.toInt ∧ b.toInt < 64 → ∀ d : Int64, IsShift d.toInt ↔ d = shift a b) :
    Shifts b IsShift (shifted shift a b) := by
  unfold Shifts shifted
  by_cases hb : 0 ≤ b.toInt ∧ b.toInt < 64
  · rw [if_pos hb, if_pos hb]
    exact ⟨shift a b, rfl, h hb⟩
  · rw [if_neg hb, if_neg hb]

/-! ### Bits -/

/-- The bits of an integer are those of the word that holds it. -/
theorem bit_toInt (a : Int64) {k : Nat} (hk : k < 64) :
    bit a.toInt k = a.toBitVec.getLsbD k := by
  have hodd (x : BitVec 64) : x.getLsbD 0 = (x.toInt % 2 = 1 : Bool) := by
    rw [← BitVec.testBit_toNat, Nat.testBit_zero, BitVec.toInt_eq_toNat_cond]
    congr 1
    split <;> simp <;> omega
  have hshift : (a.toBitVec.sshiftRight k).toInt = a.toInt.fdiv (2 ^ k) := by
    rw [BitVec.toInt_sshiftRight, Int64.toInt_toBitVec, Int.shiftRight_eq_div_pow,
      Int.fdiv_eq_ediv_of_nonneg _ (Int.pow_nonneg (by decide)), Int.natCast_pow]
    rfl
  rw [bit, ← hshift, ← hodd, BitVec.getLsbD_sshiftRight]
  simp [hk]

theorem bitwise_ok {f : Bool → Bool → Bool} {a b c : Int64}
    (h : ∀ k < 64, c.toBitVec.getLsbD k = f (a.toBitVec.getLsbD k) (b.toBitVec.getLsbD k)) :
    Bitwise f a b (.ok (.int c)) := by
  refine ⟨c, rfl, fun k hk => ?_⟩
  rw [bit_toInt a hk, bit_toInt b hk, bit_toInt c hk]
  exact h k hk

/-! ### Operators -/

theorem BinaryOp.computes_onInts (op : BinaryOp) (a b : Int64) :
    op.Computes a b (op.onInts a b) := by
  cases op with
  | add | sub | mul => exact exact_checked _ _
  | div =>
    have hzero : b = 0 ↔ b.toInt = 0 := Int64.toInt_inj.symm
    show (ite (b = 0) _ _ = _ ↔ _) ∧ (_ → ∃ x, ite (b = 0) _ _ = _)
    by_cases h : b = 0
    · simp [h]
    · simp [h, ← hzero]
  | eq | notEq => simp [Computes, onInts, Bool.beq_eq_decide_eq, bne, Int64.toInt_inj]
  | less | lessEq | greater | greaterEq =>
    simp [Computes, onInts, Int64.lt_iff_toInt_lt, Int64.le_iff_toInt_le]
  | bitAnd => exact bitwise_ok fun k hk => by simp [Int64.toBitVec_and]
  | bitOr => exact bitwise_ok fun k hk => by simp
  | bitXor => exact bitwise_ok fun k hk => by simp
  | shiftLeft =>
    unfold Computes onInts
    refine shifts_shifted fun h d => ?_
    rw [← emod_toInt_shiftLeft a h]
    exact emod_toInt_inj
  | shiftRight =>
    unfold Computes onInts
    refine shifts_shifted fun h d => ?_
    rw [← toInt_shiftRight a h]
    exact Int64.toInt_inj

theorem BinaryOp.apply_ints (op : BinaryOp) (a b : Int64) :
    op.apply (.int a) (.int b) = op.onInts a b := by
  cases op <;> rfl

/-- **The operators on integers result in what they compute on mathematical integers**, unless 64
bits cannot hold it, a shift goes too far, or zero divides. -/
theorem exact_on_integers (a b : Int64) :
    (∀ op : BinaryOp, op.Computes a b (op.apply (.int a) (.int b))) ∧
      (if a.toInt = -2 ^ 63 then
        UnaryOp.negate.apply (.int a) = .error (.integerOverflow .negation)
      else ∃ c : Int64, UnaryOp.negate.apply (.int a) = .ok (.int c) ∧ c.toInt = -a.toInt) ∧
      ∃ c : Int64, UnaryOp.complement.apply (.int a) = .ok (.int c) ∧ c.toInt = -a.toInt - 1 := by
  have hlow := a.le_toInt
  have hhigh := a.toInt_lt
  refine ⟨fun op => ?_, ?_, ~~~a, rfl, ?_⟩
  · rw [op.apply_ints]
    exact op.computes_onInts a b
  · have hexact : Exact .negation (-a.toInt) (UnaryOp.negate.apply (.int a)) :=
      exact_checked .negation _
    unfold Exact at hexact
    -- only the least integer has no negative among the integers of 64 bits
    split
    · rwa [if_neg (by omega)] at hexact
    · rwa [if_pos (by omega)] at hexact
  · rw [Int64.toInt_not, Int.bmod_eq_of_le (by omega) (by omega)]

example : BinaryOp.shiftRight.apply (.int (-5)) (.int 1) = .ok (.int (-3)) := rfl

end Lox
