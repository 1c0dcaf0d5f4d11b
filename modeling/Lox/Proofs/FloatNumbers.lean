import Mathlib
import Lox.Decimal.Float

/-!
# The numbers that floats denote

A finite float denotes a number, and `==` of floats is equality of numbers. A number has one
mantissa and one exponent, since the bits of a float leave no choice between a longer mantissa and
a greater exponent.

* `Binary.number`, `numberOf`: the number that a mantissa and an exponent, or a float, stand for;
* `Binary.Canonical`: the mantissas and exponents that bits can hold, by which numbers are told
  apart;
* `signed`, `finiteOf`: a number with its sign, and the unpacked float that it is;
* `unpack_of_isFinite`, `numberOf_of_unpack`: what finite floats are unpacked to;
* `float_beq_iff_numberOf`: `==` with a finite float.
-/

open Float.Model Float.Model.UnpackedFloat

namespace Lox

/-! ### Mantissas and exponents -/

/-- The number that a mantissa and an exponent stand for. -/
def Binary.number (b : Binary) : ℚ := b.mantissa * 2 ^ b.exponent

/-- The number that a finite float denotes. -/
def numberOf (x : Float) : ℚ :=
  if x.toBits.toNat < 2 ^ 63 then (Binary.ofFloat x).number else -(Binary.ofFloat x).number

/-- A mantissa of 53 digits, or a shorter one with the least exponent. -/
structure Binary.Canonical (b : Binary) : Prop where
  mantissa_lt : b.mantissa < 2 ^ 53
  exponent_ge : -1074 ≤ b.exponent
  full : 2 ^ 52 ≤ b.mantissa ∨ b.exponent = -1074

namespace Binary

theorem number_nonneg (b : Binary) : 0 ≤ b.number := by
  unfold number
  positivity

theorem number_eq_zero {b : Binary} : b.number = 0 ↔ b.mantissa = 0 := by
  simp [number, zpow_ne_zero]

/-- The greater exponent belongs to the greater number. -/
theorem number_lt_of_exponent_lt {b c : Binary} (hb : b.Canonical) (hc : c.Canonical)
    (h : b.exponent < c.exponent) : b.number < c.number := by
  have hfull : 2 ^ 52 ≤ c.mantissa := hc.full.resolve_right (by have := hb.exponent_ge; omega)
  have hb' : (b.mantissa : ℚ) < 2 ^ 53 := mod_cast hb.mantissa_lt
  have hc' : (2 ^ 52 : ℚ) ≤ c.mantissa := mod_cast hfull
  calc b.number < 2 ^ 53 * 2 ^ b.exponent := mul_lt_mul_of_pos_right hb' (by positivity)
    _ = 2 ^ 52 * 2 ^ (b.exponent + 1) := by
        rw [zpow_add_one₀ (by decide)]
        ring
    _ ≤ 2 ^ 52 * 2 ^ c.exponent := by
        gcongr
        · norm_num
        · omega
    _ ≤ c.number := by
        unfold number
        gcongr

theorem number_inj {b c : Binary} (hb : b.Canonical) (hc : c.Canonical)
    (h : b.number = c.number) : b = c := by
  rcases lt_trichotomy b.exponent c.exponent with hlt | heq | hgt
  · exact absurd h (number_lt_of_exponent_lt hb hc hlt).ne
  · obtain ⟨m, e⟩ := b
    obtain ⟨n, f⟩ := c
    obtain rfl : e = f := heq
    have hpow : (2 : ℚ) ^ e ≠ 0 := by positivity
    have hmantissa : (m : ℚ) = n := mul_right_cancel₀ hpow h
    rw [Nat.cast_inj.1 hmantissa]
  · exact absurd h.symm (number_lt_of_exponent_lt hc hb hgt).ne

/-- The absolute value that the bits of a finite float stand for. -/
def ofBits (bits : Nat) : Binary :=
  if bits / 2 ^ 52 % 2 ^ 11 = 0 then ⟨bits % 2 ^ 52, -1074⟩
  else ⟨2 ^ 52 + bits % 2 ^ 52, ((bits / 2 ^ 52 % 2 ^ 11 : Nat) : Int) - 1075⟩

theorem ofFloat_eq (x : Float) : ofFloat x = ofBits x.toBits.toNat := rfl

theorem canonical_ofFloat (x : Float) : (ofFloat x).Canonical := by
  rw [ofFloat_eq, ofBits]
  split
  · exact ⟨by dsimp only; omega, Int.le_refl _, .inr rfl⟩
  · exact ⟨by dsimp only; omega, by dsimp only; omega, .inl (by dsimp only; omega)⟩

end Binary

/-! ### Signs -/

/-- A number with a sign. -/
def signed (s : Sign) (b : Binary) : ℚ :=
  match s with
  | .positive => b.number
  | .negative => -b.number

theorem signed_eq_zero {s : Sign} {b : Binary} : signed s b = 0 ↔ b.mantissa = 0 := by
  cases s <;> simp [signed, Binary.number_eq_zero]

theorem abs_signed (s : Sign) (b : Binary) : |signed s b| = b.number := by
  cases s with
  | positive => exact abs_of_nonneg b.number_nonneg
  | negative => rw [signed, abs_neg, abs_of_nonneg b.number_nonneg]

/-- Only zero has two signs. -/
theorem signed_inj {s t : Sign} {b c : Binary} (hb : b.Canonical) (hc : c.Canonical)
    (h : signed s b = signed t c) : b = c ∧ (s = t ∨ b.mantissa = 0) := by
  have hbc : b = c := Binary.number_inj hb hc (by rw [← abs_signed s, h, abs_signed])
  subst hbc
  refine ⟨rfl, ?_⟩
  rw [← Binary.number_eq_zero]
  cases s <;> cases t <;> simp only [signed] at h
  · exact .inl rfl
  · exact .inr (neg_eq_self.1 h)
  · exact .inr (self_eq_neg.1 h)
  · exact .inl rfl

/-! ### Unpacking -/

/-- The unpacked float of a number. -/
def finiteOf (s : Sign) (b : Binary) : UnpackedFloat :=
  if h : b.mantissa = 0 then .zero s else .finite s b.mantissa b.exponent (Nat.pos_of_ne_zero h)

theorem finite_eq_finiteOf {s : Sign} {m : Nat} {e : Int} {h : 0 < m} {b : Binary}
    (hm : m = b.mantissa) (he : e = b.exponent) : .finite s m e h = finiteOf s b := by
  subst hm he
  rw [finiteOf, dif_neg h.ne']

theorem toNat_unpackMantissa (b : BitVec 64) :
    (@unpackMantissa .binary64 b).toNat = b.toNat % 2 ^ 52 := by
  simp [unpackMantissa, BitVec.extractLsb]

theorem toNat_unpackExponent (b : BitVec 64) :
    (@unpackExponent .binary64 b).toNat = b.toNat / 2 ^ 52 % 2 ^ 11 := by
  simp [unpackExponent, BitVec.extractLsb, Nat.shiftRight_eq_div_pow]

theorem toNat_unpackSign (b : BitVec 64) :
    (@unpackSign .binary64 b).toNat = b.toNat / 2 ^ 63 := by
  have := b.isLt
  simp [unpackSign, BitVec.extractLsb, Nat.shiftRight_eq_div_pow]
  omega

/-- The leading digit of a mantissa is not packed. -/
theorem toNat_cons_one (m : BitVec 52) : (1#1 ++ m).toNat = 2 ^ 52 + m.toNat := by
  rw [BitVec.toNat_append, ← Nat.shiftLeft_add_eq_or_of_lt m.isLt]
  rfl

theorem unpack_eq_finiteOf {b : BitVec 64} (h : (UnpackedFloat.unpack .binary64 b).isFinite) :
    UnpackedFloat.unpack .binary64 b =
      finiteOf (.ofBitVec (@unpackSign .binary64 b)) (.ofBits b.toNat) := by
  unfold UnpackedFloat.unpack at h ⊢
  unfold Binary.ofBits
  rw [← toNat_unpackMantissa, ← toNat_unpackExponent]
  dsimp only at h ⊢
  split at h
  · split at h <;> cases h
  · next hinf =>
    rw [if_neg hinf]
    by_cases he : @unpackExponent .binary64 b = 0#_
    · have he' : (@unpackExponent .binary64 b).toNat = 0 := by rw [he]; rfl
      rw [if_pos he, if_pos he']
      by_cases hm : @unpackMantissa .binary64 b = 0#_
      · have hm' : (@unpackMantissa .binary64 b).toNat = 0 := by rw [hm]; rfl
        rw [dif_pos hm, finiteOf, dif_pos hm']
      · rw [dif_neg hm]
        refine finite_eq_finiteOf rfl ?_
        rw [he']
        rfl
    · have he' : (@unpackExponent .binary64 b).toNat ≠ 0 :=
        fun h => he (BitVec.eq_of_toNat_eq h)
      rw [if_neg he, if_neg he']
      exact finite_eq_finiteOf (toNat_cons_one _) rfl

theorem numberOf_eq_signed (x : Float) :
    numberOf x = signed (.ofBitVec (@unpackSign .binary64 x.toModel.toBits.toBitVec))
      (.ofFloat x) := by
  have hsign := toNat_unpackSign x.toModel.toBits.toBitVec
  have hword : x.toBits.toNat = x.toModel.toBits.toBitVec.toNat := rfl
  have hlt := x.toModel.toBits.toBitVec.isLt
  rw [numberOf, hword]
  split
  · next h =>
    have hpositive : @unpackSign .binary64 x.toModel.toBits.toBitVec = 0#1 := by
      apply BitVec.eq_of_toNat_eq
      rw [hsign, Nat.div_eq_of_lt h]
      rfl
    rw [hpositive]
    rfl
  · next h =>
    have hnegative : @unpackSign .binary64 x.toModel.toBits.toBitVec = 1#1 := by
      apply BitVec.eq_of_toNat_eq
      rw [hsign]
      show _ = 1
      omega
    rw [hnegative]
    rfl

/-- A finite float is unpacked to the number that it denotes. -/
theorem unpack_of_isFinite {x : Float} (h : x.isFinite) :
    ∃ s, x.toModel.unpack = finiteOf s (.ofFloat x) ∧ numberOf x = signed s (.ofFloat x) :=
  ⟨_, unpack_eq_finiteOf h, numberOf_eq_signed x⟩

theorem isFinite_finiteOf (s : Sign) (b : Binary) : (finiteOf s b).isFinite := by
  unfold finiteOf
  split <;> rfl

theorem finiteOf_ne_notANumber (s : Sign) (b : Binary) : finiteOf s b ≠ .notANumber := by
  intro h
  have hfinite := isFinite_finiteOf s b
  rw [h] at hfinite
  cases hfinite

theorem signed_of_finiteOf_eq_zero {s t : Sign} {b : Binary} (h : finiteOf s b = .zero t) :
    signed s b = 0 := by
  unfold finiteOf at h
  split at h
  · next hm => exact signed_eq_zero.2 hm
  · cases h

theorem signed_eq_of_finiteOf_eq {s t : Sign} {b c : Binary} (h : finiteOf s b = finiteOf t c) :
    signed s b = signed t c := by
  obtain ⟨m, e⟩ := b
  obtain ⟨n, f⟩ := c
  unfold finiteOf at h
  split at h <;> split at h
  · next hm hn => rw [signed_eq_zero.2 hm, signed_eq_zero.2 hn]
  · cases h
  · cases h
  · cases h
    rfl

/-- What a float is unpacked to tells which number it denotes. -/
theorem numberOf_of_unpack {x : Float} {s : Sign} {b : Binary}
    (h : x.toModel.unpack = finiteOf s b) : x.isFinite ∧ numberOf x = signed s b := by
  have hx : x.isFinite := by
    show x.toModel.unpack.isFinite
    rw [h]
    exact isFinite_finiteOf s b
  obtain ⟨t, hunpack, hnumber⟩ := unpack_of_isFinite hx
  refine ⟨hx, ?_⟩
  rw [hnumber]
  exact signed_eq_of_finiteOf_eq (hunpack.symm.trans h)

/-! ### Equality -/

theorem beq_finiteOf {s t : Sign} {b c : Binary} (hb : b.Canonical) (hc : c.Canonical) :
    (finiteOf s b).beq (finiteOf t c) ↔ signed s b = signed t c := by
  rw [beq_iff_ne_notANumber_and_eq]
  constructor
  · rintro ⟨-, -, h | ⟨h, h'⟩ | ⟨h, h'⟩⟩
    · exact signed_eq_of_finiteOf_eq h
    · rw [signed_of_finiteOf_eq_zero h, signed_of_finiteOf_eq_zero h']
    · rw [signed_of_finiteOf_eq_zero h, signed_of_finiteOf_eq_zero h']
  · intro h
    refine ⟨finiteOf_ne_notANumber s b, finiteOf_ne_notANumber t c, ?_⟩
    obtain ⟨rfl, rfl | hm⟩ := signed_inj hb hc h
    · exact .inl rfl
    · rw [finiteOf, dif_pos hm, finiteOf, dif_pos hm]
      cases s <;> cases t <;> simp

/-- A finite float equals the floats that are finite too and denote the same number. -/
theorem float_beq_iff_numberOf {x y : Float} (hx : x.isFinite) :
    (x == y) = true ↔ y.isFinite ∧ numberOf x = numberOf y := by
  by_cases hy : y.isFinite
  · obtain ⟨s, hunpack, hnumber⟩ := unpack_of_isFinite hx
    obtain ⟨t, hunpack', hnumber'⟩ := unpack_of_isFinite hy
    show x.toModel.unpack.beq y.toModel.unpack ↔ _
    rw [hunpack, hunpack', hnumber, hnumber',
      beq_finiteOf (Binary.canonical_ofFloat x) (Binary.canonical_ofFloat y)]
    exact (and_iff_right hy).symm
  · refine iff_of_false (fun h => hy ?_) fun h => hy h.1
    obtain ⟨-, -, h | ⟨-, h⟩ | ⟨-, h⟩⟩ := (beq_iff_ne_notANumber_and_eq _ _).1 h
    · exact (congrArg UnpackedFloat.isFinite h).symm.trans hx
    · exact congrArg UnpackedFloat.isFinite h
    · exact congrArg UnpackedFloat.isFinite h

end Lox
