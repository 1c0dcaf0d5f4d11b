import Lox.Proofs.Widening

/-!
# Equality of values

There are two equalities: `Value.same`, which holds of data with equal content and of one and the
same object, and the equality of the language, which is defined for some pairs only and also
compares integers with floats, by widening them.

* `ValueType.comparable`: the pairs of sorts that the language compares;
* `Value.Same`: what `Value.same` decides;
* `equalities_coherent`: how the two fit together, and `!=` with `==`;
* `Value.Equals`: `==` results in `true`;
* `equality_transitive_unless_rounded`: this is transitive, but for integers that are rounded to
  one float.
-/

namespace Lox

/-! ### Sorts -/

/-- Whether `==` is defined for values of two sorts. -/
def ValueType.comparable (s t : ValueType) : Bool := s = t || (s.isNumeric && t.isNumeric)

theorem ValueType.comparable_comm (s t : ValueType) : s.comparable t = t.comparable s := by
  rw [comparable, comparable, Bool.and_comm, decide_eq_decide.2 eq_comm]

theorem ValueType.name_inj {s t : ValueType} : s.name = t.name ↔ s = t := by
  constructor
  · intro h
    cases s <;> cases t <;> first | rfl | simp [name] at h
  · rintro rfl
    rfl

/-! ### The same value -/

/-- Data with equal content, or one and the same object. A native function is never a function of
a program. -/
inductive Value.Same : Value → Value → Prop
  | nil : Same .nil .nil
  | bool (b : Bool) : Same (.bool b) (.bool b)
  | int (n : Int64) : Same (.int n) (.int n)
  | float {x y : Float} (h : (x == y) = true) : Same (.float x) (.float y)
  | str (s : String) : Same (.str s) (.str s)
  | function (i : Nat) (f g : Function) : Same (.function i f) (.function i g)
  | native (i : Nat) (f g : Native) : Same (.native i f) (.native i g)
  | cls (i : Nat) (c d : String) : Same (.cls i c) (.cls i d)
  | object (i : Nat) (c d : String) : Same (.object i c) (.object i d)

namespace Value

theorem same_iff {l r : Value} : l.same r = true ↔ l.Same r := by
  constructor
  · intro h
    unfold same at h
    split at h
    · exact .nil
    · obtain rfl := beq_iff_eq.1 h
      exact .bool _
    · obtain rfl := beq_iff_eq.1 h
      exact .int _
    · exact .float h
    · obtain rfl := beq_iff_eq.1 h
      exact .str _
    · obtain rfl := beq_iff_eq.1 h
      exact .function _ _ _
    · obtain rfl := beq_iff_eq.1 h
      exact .native _ _ _
    · obtain rfl := beq_iff_eq.1 h
      exact .cls _ _ _
    · obtain rfl := beq_iff_eq.1 h
      exact .object _ _ _
    · cases h
  · intro h
    cases h with
    | nil => rfl
    | float h => exact h
    | _ => exact beq_self_eq_true _

theorem Same.symm {l r : Value} (h : l.Same r) : r.Same l := by
  cases h with
  | nil => exact .nil
  | float h => exact .float (BEq.symm h)
  | _ => constructor

theorem Same.trans {a b c : Value} (h : a.Same b) (h' : b.Same c) : a.Same c := by
  cases h with
  | float h =>
    cases h' with
    | float h' => exact .float (BEq.trans h h')
  | function | native | cls | object => cases h'; constructor
  | _ => exact h'

theorem Same.type_eq {l r : Value} (h : l.Same r) : l.type = r.type := by
  cases h <;> rfl

theorem same_comm (l r : Value) : l.same r = r.same l := by
  rw [Bool.eq_iff_iff, same_iff, same_iff]
  exact ⟨Same.symm, Same.symm⟩

/-! ### Equality of the language -/

theorem equal?_of_type_eq {l r : Value} (h : l.type = r.type) : l.equal? r = some (l.same r) := by
  unfold equal?
  split
  · cases h
  · cases h
  · rw [if_pos h]

/-- The sort of a number tells how it is made. -/
theorem of_isNumeric {v : Value} (h : v.type.isNumeric) :
    (∃ n, v = .int n) ∨ ∃ x, v = .float x := by
  cases v with
  | int n => exact .inl ⟨n, rfl⟩
  | float x => exact .inr ⟨x, rfl⟩
  | _ => cases h

theorem of_comparable {l r : Value} (h : l.type.comparable r.type) :
    l.type = r.type ∨ (∃ n x, l = .int n ∧ r = .float x) ∨ ∃ x n, l = .float x ∧ r = .int n := by
  rw [ValueType.comparable, Bool.or_eq_true, decide_eq_true_eq, Bool.and_eq_true] at h
  rcases h with h | ⟨hl, hr⟩
  · exact .inl h
  · rcases of_isNumeric hl with ⟨n, rfl⟩ | ⟨x, rfl⟩ <;>
      rcases of_isNumeric hr with ⟨m, rfl⟩ | ⟨y, rfl⟩
    · exact .inl rfl
    · exact .inr (.inl ⟨n, y, rfl, rfl⟩)
    · exact .inr (.inr ⟨x, m, rfl, rfl⟩)
    · exact .inl rfl

theorem equal?_eq_none {l r : Value} (h : l.type.comparable r.type = false) :
    l.equal? r = none := by
  unfold equal?
  split
  · cases h
  · cases h
  · next hmixed hmixed' =>
    refine if_neg fun heq => ?_
    simp [ValueType.comparable, heq] at h

theorem isSome_equal? (l r : Value) : (l.equal? r).isSome = l.type.comparable r.type := by
  cases h : l.type.comparable r.type with
  | false => rw [equal?_eq_none h, Option.isSome_none]
  | true =>
    rcases of_comparable h with h | ⟨n, x, rfl, rfl⟩ | ⟨x, n, rfl, rfl⟩
    · rw [equal?_of_type_eq h, Option.isSome_some]
    · rfl
    · rfl

theorem equal?_comm (l r : Value) : l.equal? r = r.equal? l := by
  cases h : l.type.comparable r.type with
  | false =>
    have h' : r.type.comparable l.type = false := by rwa [ValueType.comparable_comm]
    rw [equal?_eq_none h, equal?_eq_none h']
  | true =>
    rcases of_comparable h with h | ⟨n, x, rfl, rfl⟩ | ⟨x, n, rfl, rfl⟩
    · rw [equal?_of_type_eq h, equal?_of_type_eq h.symm, same_comm]
    · exact congrArg some BEq.comm
    · exact congrArg some BEq.comm

theorem equal?_of_same {l r : Value} (h : l.same r = true) : l.equal? r = some true := by
  rw [equal?_of_type_eq (same_iff.1 h).type_eq, h]

end Value

theorem BinaryOp.apply_eq_ok {l r v : Value} :
    BinaryOp.eq.apply l r = .ok v ↔ ∃ b, l.equal? r = some b ∧ v = .bool b := by
  show (((l.equal? r).map fun b => .ok (.bool b)).getD _ : Except Fault Value) = _ ↔ _
  cases l.equal? r with
  | none => simp
  | some b => simp [eq_comm]

theorem BinaryOp.apply_notEq_ok {l r v : Value} :
    BinaryOp.notEq.apply l r = .ok v ↔ ∃ b, l.equal? r = some b ∧ v = .bool !b := by
  show (((l.equal? r).map fun b => .ok (.bool !b)).getD _ : Except Fault Value) = _ ↔ _
  cases l.equal? r with
  | none => simp
  | some b => simp [eq_comm]

/-- **The two equalities agree where they meet.** The equality of the language is defined for
values of one sort and for numbers, and symmetric; on values of one sort it is the equality by
content or identity, which it always follows; and `!=` is its negation. -/
theorem equalities_coherent (l r : Value) :
    ((l.equal? r).isSome ↔
      l.type.name = r.type.name ∨ (l.type.isNumeric ∧ r.type.isNumeric)) ∧
    l.equal? r = r.equal? l ∧
    (l.type.name = r.type.name → l.equal? r = some (l.same r)) ∧
    (l.same r = true ↔ l.Same r) ∧
    (l.same r = true → l.equal? r = some true) ∧
    (∀ v, BinaryOp.eq.apply l r = .ok v ↔ ∃ b, l.equal? r = some b ∧ v = .bool b) ∧
    (∀ v, BinaryOp.notEq.apply l r = .ok v ↔
      ∃ b, BinaryOp.eq.apply l r = .ok (.bool b) ∧ v = .bool !b) := by
  refine ⟨?_, Value.equal?_comm l r, fun h => ?_, Value.same_iff, Value.equal?_of_same,
    fun v => BinaryOp.apply_eq_ok, fun v => ?_⟩
  · rw [Value.isSome_equal?, ValueType.comparable, ValueType.name_inj]
    simp
  · exact Value.equal?_of_type_eq (ValueType.name_inj.1 h)
  · rw [BinaryOp.apply_notEq_ok]
    simp [BinaryOp.apply_eq_ok]

/-! ### Transitivity -/

/-- `==` results in `true`. -/
def Value.Equals (a b : Value) : Prop := BinaryOp.eq.apply a b = .ok (.bool true)

theorem Value.equals_iff {a b : Value} : a.Equals b ↔ a.equal? b = some true := by
  unfold Equals
  rw [BinaryOp.apply_eq_ok]
  simp

theorem Value.Equals.cases {a b : Value} (h : a.Equals b) :
    a.Same b ∨ (∃ n x, a = .int n ∧ b = .float x ∧ (widen n == x) = true) ∨
      ∃ x n, a = .float x ∧ b = .int n ∧ (x == widen n) = true := by
  rw [equals_iff] at h
  have hcomparable : a.type.comparable b.type := by rw [← isSome_equal?, h, Option.isSome_some]
  rcases of_comparable hcomparable with htype | ⟨n, x, rfl, rfl⟩ | ⟨x, n, rfl, rfl⟩
  · rw [equal?_of_type_eq htype] at h
    exact .inl (same_iff.1 (Option.some.inj h))
  · exact .inr (.inl ⟨n, x, rfl, rfl, Option.some.inj h⟩)
  · exact .inr (.inr ⟨x, n, rfl, rfl, Option.some.inj h⟩)

theorem Value.Same.equals {a b : Value} (h : a.Same b) : a.Equals b :=
  equals_iff.2 (equal?_of_same (same_iff.2 h))

theorem Value.Equals.symm {a b : Value} (h : a.Equals b) : b.Equals a := by
  rw [equals_iff] at h ⊢
  rw [equal?_comm, h]

theorem Value.equals_int {m n : Int64} : (Value.int m).Equals (.int n) ↔ m = n := by
  rw [equals_iff]
  show some (m == n) = some true ↔ _
  rw [Option.some_inj, beq_iff_eq]

theorem Value.equals_widen {n : Int64} {x : Float} :
    (Value.int n).Equals (.float x) ↔ (widen n == x) = true := by
  rw [equals_iff]
  show some (widen n == x) = some true ↔ _
  rw [Option.some_inj]

/-- `==` is transitive, but between two integers and a float. -/
theorem Value.Equals.trans {a b c : Value} (h : a.Equals b) (h' : b.Equals c) :
    a.Equals c ∨ ∃ m x n, a = .int m ∧ b = .float x ∧ c = .int n := by
  rcases h.cases with hab | ⟨m, x, rfl, rfl, hmx⟩ | ⟨x, m, rfl, rfl, hxm⟩ <;>
    rcases h'.cases with hbc | ⟨n, y, hb, rfl, hny⟩ | ⟨y, n, hb, rfl, hyn⟩
  · exact .inl (hab.trans hbc).equals
  · subst hb
    cases hab
    exact .inl h'
  · subst hb
    cases hab with
    | float hxy =>
      exact .inl (equals_widen.2 (BEq.symm (BEq.trans hxy hyn))).symm
  · cases hbc with
    | float hxy => exact .inl (equals_widen.2 (BEq.trans hmx hxy))
  · cases hb
  · exact .inr ⟨m, x, n, rfl, rfl, rfl⟩
  · cases hbc
    exact .inl h
  · cases hb
    exact .inl (Same.float (BEq.trans hxm hny)).equals
  · cases hb

/-- An integer equals the finite floats that denote the integer rounded to 53 digits. -/
theorem Value.equals_int_float {n : Int64} {x : Float} :
    (Value.int n).Equals (.float x) ↔ x.isFinite ∧ numberOf x = rounded n.toInt := by
  rw [equals_widen, float_beq_iff_numberOf (isFinite_widen n), numberOf_widen,
    eq_comm (b := numberOf x)]

/-- The integers between which `==` fails to be transitive. -/
theorem Value.Equals.of_int_float_int {m n : Int64} {x : Float}
    (h : (Value.int m).Equals (.float x)) (h' : (Value.float x).Equals (.int n)) (hne : m ≠ n) :
    2 ^ 53 ≤ m.toInt.natAbs ∧ 2 ^ 53 ≤ n.toInt.natAbs ∧ rounded m.toInt = rounded n.toInt := by
  have hm := equals_int_float.1 h
  have hn := equals_int_float.1 h'.symm
  have hrounded : rounded m.toInt = rounded n.toInt :=
    Int.cast_injective (hm.2.symm.trans hn.2)
  have hne' : m.toInt ≠ n.toInt := fun heq => hne (Int64.toInt_inj.1 heq)
  refine ⟨?_, ?_, hrounded⟩
  · by_contra hlt
    exact hne' (rounded_inj_of_natAbs_lt (Nat.lt_of_not_le hlt) hrounded)
  · by_contra hlt
    exact hne' (rounded_inj_of_natAbs_lt (Nat.lt_of_not_le hlt) hrounded.symm).symm

/-- **Equality is transitive, unless rounding makes two integers equal to one float.** An integer
and a float are equal if the float denotes the integer, rounded to 53 digits; up to `2 ^ 53`, and
whenever a float denotes an integer, that is the integer itself. -/
theorem equality_transitive_unless_rounded (a b c : Value) :
    (a.Equals b → b.Equals c →
      (¬ a.Equals c ↔ ∃ m x n, a = .int m ∧ b = .float x ∧ c = .int n ∧ m ≠ n ∧
        2 ^ 53 ≤ m.toInt.natAbs ∧ 2 ^ 53 ≤ n.toInt.natAbs ∧
        rounded m.toInt = rounded n.toInt)) ∧
    (∀ n x, (Value.int n).Equals (.float x) ↔ x.isFinite ∧ numberOf x = rounded n.toInt) ∧
    (∀ n x, (Value.float x).Equals (.int n) ↔ x.isFinite ∧ numberOf x = rounded n.toInt) ∧
    (∀ n : Int, n.natAbs ≤ 2 ^ 53 → rounded n = n) ∧
    (∀ (n : Int) x, numberOf x = n → rounded n = n) := by
  refine ⟨fun h h' => ⟨fun hac => ?_, ?_⟩, fun n x => Value.equals_int_float,
    fun n x => ⟨fun h => Value.equals_int_float.1 h.symm, fun h => ?_⟩,
    fun n => rounded_of_natAbs_le, fun n x => rounded_of_numberOf⟩
  · obtain ⟨m, x, n, rfl, rfl, rfl⟩ := (h.trans h').resolve_left hac
    have hne : m ≠ n := fun heq => hac (Value.equals_int.2 heq)
    exact ⟨m, x, n, rfl, rfl, rfl, hne, h.of_int_float_int h' hne⟩
  · rintro ⟨m, x, n, rfl, -, rfl, hne, -⟩ hac
    exact hne (Value.equals_int.1 hac)
  · exact (Value.equals_int_float.2 h).symm

/-- The least integers that are different and equal to one float. -/
theorem equality_not_transitive :
    (Value.int 9007199254740992).Equals (.float 9007199254740992.0) ∧
      (Value.float 9007199254740992.0).Equals (.int 9007199254740993) ∧
      BinaryOp.eq.apply (.int 9007199254740992) (.int 9007199254740993) = .ok (.bool false) := by
  refine ⟨Value.equals_widen.2 ?_, (Value.equals_widen.2 ?_).symm, rfl⟩
  · decide +kernel
  · decide +kernel

end Lox
