import Lox.Value.Operators
import Lox.Proofs.FloatNumbers

/-!
# Integers as floats

A widened integer is the number with 53 binary digits that is nearest to it, of two the one with
the even mantissa.

* `halfEven`, `roundedNat`, `rounded`: rounding to an integer, and to 53 digits;
* `carried`: the number that a rounded mantissa becomes;
* `roundWithAccuracy_eq`, `unpack_pack`: rounding and packing of numbers that have 53 digits;
* `numberOf_widen`: what a widened integer denotes;
* `rounded_of_natAbs_le`, `rounded_of_numberOf`: what rounding leaves alone;
* `widen_nearest`.
-/

open Float.Model Float.Model.UnpackedFloat

namespace Lox

/-! ### Rounding -/

/-- The integer nearest to the quotient `n / d`, of two the even one. -/
def halfEven (n d : Nat) : Nat :=
  if 2 * (n % d) < d then n / d else if d < 2 * (n % d) then n / d + 1 else n / d + n / d % 2

/-- The integer of at most 53 binary digits, followed by zeros, that is nearest to `n`. -/
def roundedNat (n : Nat) : Nat := halfEven n (2 ^ (n.log2 - 52)) * 2 ^ (n.log2 - 52)

/-- An integer whose absolute value is rounded to 53 binary digits, ties to even. -/
def rounded (n : Int) : Int := n.sign * roundedNat n.natAbs

theorem halfEven_bounds (n d : Nat) : n / d ≤ halfEven n d ∧ halfEven n d ≤ n / d + 1 := by
  unfold halfEven
  split_ifs <;> omega

theorem halfEven_of_dvd {n d : Nat} (h : d ∣ n) (hd : 0 < d) : halfEven n d = n / d := by
  rw [halfEven, Nat.mod_eq_zero_of_dvd h, Nat.mul_zero, if_pos hd]

theorem halfEven_mul (n : Nat) {d : Nat} (hd : 0 < d) : halfEven (n * d) d = n := by
  rw [halfEven_of_dvd (Nat.dvd_mul_left d n) hd, Nat.mul_div_cancel _ hd]

theorem halfEven_mul_mul (n d : Nat) {c : Nat} (hc : 0 < c) :
    halfEven (n * c) (d * c) = halfEven n d := by
  have htwice : 2 * (n % d * c) = 2 * (n % d) * c := (Nat.mul_assoc 2 _ c).symm
  simp only [halfEven, Nat.mul_mod_mul_right, Nat.mul_div_mul_right _ _ hc, htwice,
    Nat.mul_lt_mul_right hc]

/-- No multiple of `d` is nearer to `n`. -/
theorem halfEven_nearest (n m : Nat) {d : Nat} (hd : 0 < d) :
    ((n : Int) - (halfEven n d * d : Nat)).natAbs ≤ ((n : Int) - (m * d : Nat)).natAbs := by
  have hn := Nat.div_add_mod' n d
  have hlt := Nat.mod_lt n hd
  have hnext : (n / d + 1) * d = n / d * d + d := Nat.succ_mul _ _
  have hm : m * d ≤ n / d * d ∨ n / d * d + d ≤ m * d := by
    rcases Nat.lt_or_ge (n / d) m with h | h
    · exact .inr (hnext ▸ Nat.mul_le_mul_right d h)
    · exact .inl (Nat.mul_le_mul_right d h)
  unfold halfEven
  split_ifs with hlow hhigh
  · omega
  · omega
  · -- in the middle, both neighbours are as near
    rcases Nat.mod_two_eq_zero_or_one (n / d) with h | h <;> rw [h]
    · rw [Nat.add_zero]
      omega
    · omega

/-- The leading 53 digits of a number that has as many. -/
theorem leading_digits {n : Nat} (hn : n ≠ 0) (hlog : 52 ≤ n.log2) :
    2 ^ 52 ≤ n / 2 ^ (n.log2 - 52) ∧ n / 2 ^ (n.log2 - 52) < 2 ^ 53 := by
  have hpos : 0 < 2 ^ (n.log2 - 52) := Nat.two_pow_pos _
  rw [Nat.le_div_iff_mul_le hpos, Nat.div_lt_iff_lt_mul hpos, ← Nat.pow_add, ← Nat.pow_add,
    show 52 + (n.log2 - 52) = n.log2 by omega, show 53 + (n.log2 - 52) = n.log2 + 1 by omega]
  exact ⟨Nat.log2_self_le hn, Nat.lt_log2_self⟩

theorem roundedNat_of_dvd {n : Nat} (h : 2 ^ (n.log2 - 52) ∣ n) : roundedNat n = n := by
  rw [roundedNat, halfEven_of_dvd h (Nat.two_pow_pos _), Nat.div_mul_cancel h]

theorem roundedNat_of_le {n : Nat} (h : n ≤ 2 ^ 53) : roundedNat n = n := by
  apply roundedNat_of_dvd
  rcases h.eq_or_lt with rfl | hlt
  · decide
  · by_cases hn : n = 0
    · rw [hn]
      exact Nat.dvd_zero _
    · have hlog : n.log2 < 53 := (Nat.log2_lt hn).2 hlt
      rw [show n.log2 - 52 = 0 by omega]
      exact Nat.one_dvd n

theorem le_roundedNat {n : Nat} (h : 2 ^ 53 ≤ n) : 2 ^ 53 ≤ roundedNat n := by
  have hn : n ≠ 0 := by omega
  have hlog : 53 ≤ n.log2 := (Nat.le_log2 hn).2 h
  have hdigits := leading_digits hn (by omega)
  have hbounds := halfEven_bounds n (2 ^ (n.log2 - 52))
  calc 2 ^ 53 = 2 ^ 52 * 2 ^ 1 := by decide
    _ ≤ roundedNat n :=
        Nat.mul_le_mul (by omega) (Nat.pow_le_pow_right (by decide) (by omega))

theorem rounded_natCast (n : Nat) : rounded n = roundedNat n := by
  rw [rounded, Int.natAbs_natCast]
  by_cases hn : n = 0
  · subst hn
    decide
  · rw [Int.sign_natCast_of_ne_zero hn, Int.one_mul]

theorem rounded_neg (n : Int) : rounded (-n) = -rounded n := by
  rw [rounded, rounded, Int.sign_neg, Int.natAbs_neg, Int.neg_mul]

theorem natAbs_rounded (n : Int) : (rounded n).natAbs = roundedNat n.natAbs := by
  rcases Int.natAbs_eq n with hn | hn
  · conv_lhs => rw [hn, rounded_natCast, Int.natAbs_natCast]
  · conv_lhs => rw [hn, rounded_neg, rounded_natCast, Int.natAbs_neg, Int.natAbs_natCast]

theorem rounded_of_roundedNat {n : Int} (h : roundedNat n.natAbs = n.natAbs) : rounded n = n := by
  rw [rounded, h, Int.sign_mul_natAbs]

theorem rounded_of_natAbs_le {n : Int} (h : n.natAbs ≤ 2 ^ 53) : rounded n = n :=
  rounded_of_roundedNat (roundedNat_of_le h)

/-- Rounding does not reach below `2 ^ 53`. -/
theorem rounded_inj_of_natAbs_lt {m n : Int} (hm : m.natAbs < 2 ^ 53)
    (h : rounded m = rounded n) : m = n := by
  rw [rounded_of_natAbs_le hm.le] at h
  rcases Nat.lt_or_ge n.natAbs (2 ^ 53) with hn | hn
  · rw [h, rounded_of_natAbs_le hn.le]
  · have hle := le_roundedNat hn
    rw [← natAbs_rounded, ← h] at hle
    omega

/-! ### Rounding of unpacked floats -/

theorem shiftRight_exact (m k : Nat) :
    ExtendedMantissa.ofMantissaAndAccuracy m .exact >>> k =
      ⟨m / 2 ^ k, 2 ^ k ≤ 2 * (m % 2 ^ k), 2 * (m % 2 ^ k) % 2 ^ k ≠ 0⟩ := by
  induction k with
  | zero =>
    show ExtendedMantissa.mk m false false = _
    simp [Nat.mod_one]
  | succ k ih =>
    show (ExtendedMantissa.ofMantissaAndAccuracy m .exact >>> k).shiftRightOne = _
    have hlt : m % 2 ^ k < 2 ^ k := Nat.mod_lt _ (Nat.two_pow_pos k)
    have hsplit : m % 2 ^ (k + 1) = m % 2 ^ k + 2 ^ k * (m / 2 ^ k % 2) := by
      rw [Nat.pow_succ, Nat.mod_mul]
    have htwice : 2 * (m % 2 ^ (k + 1)) % 2 ^ (k + 1) = 2 * (m % 2 ^ k) := by
      rw [Nat.pow_succ, Nat.mul_comm (2 ^ k), Nat.mul_mod_mul_left,
        Nat.mod_mod_of_dvd m (Nat.dvd_mul_left (2 ^ k) 2)]
    have hsmall : 2 * (m % 2 ^ k) < 2 ^ k → 2 * (m % 2 ^ k) % 2 ^ k = 2 * (m % 2 ^ k) :=
      Nat.mod_eq_of_lt
    rw [ih, ExtendedMantissa.shiftRightOne, htwice, hsplit, Nat.pow_succ, ← Nat.div_div_eq_div_mul]
    congr 1
    · rcases Nat.mod_two_eq_zero_or_one (m / 2 ^ k) with h | h <;> simp [h] <;> omega
    · rw [← Bool.decide_or]
      exact decide_eq_decide.2 (by omega)

theorem roundedMantissa_mk (n : Nat) (round sticky : Bool) :
    (ExtendedMantissa.mk n round sticky).roundedMantissa =
      if round then (if sticky then n + 1 else n + n % 2) else n := by
  cases round <;> cases sticky <;> rfl

/-- The round bit and the sticky bit say which half of the interval a number lies in. -/
theorem roundedMantissa_shiftRight (m k : Nat) :
    (ExtendedMantissa.ofMantissaAndAccuracy m .exact >>> k).roundedMantissa =
      halfEven m (2 ^ k) := by
  have hlt : m % 2 ^ k < 2 ^ k := Nat.mod_lt _ (Nat.two_pow_pos k)
  rw [shiftRight_exact, roundedMantissa_mk, halfEven]
  by_cases hbit : 2 ^ k ≤ 2 * (m % 2 ^ k)
  · have hmod : 2 * (m % 2 ^ k) % 2 ^ k = 2 * (m % 2 ^ k) - 2 ^ k := by
      rw [Nat.mod_eq_sub_mod hbit, Nat.mod_eq_of_lt (by omega)]
    rw [if_pos (decide_eq_true hbit), if_neg (Nat.not_lt.2 hbit), hmod]
    refine if_congr ?_ rfl rfl
    rw [decide_eq_true_eq]
    omega
  · rw [if_neg (by simpa using hbit), if_pos (Nat.lt_of_not_le hbit)]

theorem log2_eq {m k : Nat} (hlow : 2 ^ 52 ≤ m / 2 ^ k) (hhigh : m / 2 ^ k < 2 ^ 53) :
    m.log2 = 52 + k := by
  have hpos : 0 < 2 ^ k := Nat.two_pow_pos k
  rw [Nat.le_div_iff_mul_le hpos, ← Nat.pow_add] at hlow
  rw [Nat.div_lt_iff_lt_mul hpos, ← Nat.pow_add] at hhigh
  have hm : m ≠ 0 := by
    have := Nat.two_pow_pos (52 + k)
    omega
  have h1 := (Nat.le_log2 hm).2 hlow
  have h2 := (Nat.log2_lt hm).2 hhigh
  omega

theorem shiftToTargetExponent_eq {m k : Nat} {e : Int} (hlow : 2 ^ 52 ≤ m / 2 ^ k)
    (hhigh : m / 2 ^ k < 2 ^ 53) (he : -1074 ≤ e + k) :
    shiftToTargetExponent .binary64 m e .exact =
      (ExtendedMantissa.ofMantissaAndAccuracy m .exact >>> k, e + k) := by
  have htarget : Format.binary64.targetExponent (totalExponent m e) = e + k := by
    simp only [Format.targetExponent, totalExponent, Format.mantissaBits, Format.minExponent,
      log2_eq hlow hhigh]
    omega
  rw [shiftToTargetExponent, htarget, shiftToExponent, show (e + k - e).toNat = k by omega]

/-- What a rounded mantissa becomes: if it has grown by a digit, it is a power of two. -/
def carried (r : Nat) (e : Int) : Binary := if r < 2 ^ 53 then ⟨r, e⟩ else ⟨2 ^ 52, e + 1⟩

theorem number_carried {r : Nat} (hr : r ≤ 2 ^ 53) (e : Int) :
    (carried r e).number = r * 2 ^ e := by
  unfold carried
  split
  · rfl
  · obtain rfl : r = 2 ^ 53 := by omega
    rw [Binary.number, zpow_add_one₀ (by decide)]
    push_cast
    ring

theorem roundWithAccuracy_eq (s : Sign) {m k : Nat} {e : Int} (hlow : 2 ^ 52 ≤ m / 2 ^ k)
    (hhigh : m / 2 ^ k < 2 ^ 53) (he : -1074 ≤ e + k) :
    roundWithAccuracy .binary64 s m e .exact =
      finiteOf s (carried (halfEven m (2 ^ k)) (e + k)) := by
  obtain ⟨hr, hr'⟩ := halfEven_bounds m (2 ^ k)
  have hround : roundWithAccuracy .binary64 s m e .exact =
      let r := shiftToTargetExponent .binary64 (halfEven m (2 ^ k)) (e + k) .exact
      finiteOf s ⟨r.1.mantissa, r.2⟩ := by
    rw [← roundedMantissa_shiftRight, roundWithAccuracy, shiftToTargetExponent_eq hlow hhigh he]
    rfl
  rw [hround]
  generalize halfEven m (2 ^ k) = r at hr hr' ⊢
  unfold carried
  -- the second round has nothing to do, unless the first one has made a digit more
  by_cases hsmall : r < 2 ^ 53
  · rw [shiftToTargetExponent_eq (k := 0) (by simp; omega) (by simpa) (by simpa), if_pos hsmall,
      shiftRight_exact]
    simp
  · obtain rfl : r = 2 ^ 53 := by omega
    rw [shiftToTargetExponent_eq (k := 1) (by decide) (by decide) (by omega), if_neg hsmall,
      shiftRight_exact]
    rfl

/-! ### Packing -/

/-- A number that bits hold with an implicit leading digit. -/
structure Binary.Normal (b : Binary) : Prop where
  mantissa_ge : 2 ^ 52 ≤ b.mantissa
  mantissa_lt : b.mantissa < 2 ^ 53
  exponent_ge : -1074 ≤ b.exponent
  exponent_le : b.exponent ≤ 971

theorem normal_carried {r : Nat} {e : Int} (hr : 2 ^ 52 ≤ r) (he : -1074 ≤ e) (he' : e < 971) :
    (carried r e).Normal := by
  unfold carried
  split
  · next h => exact ⟨hr, h, he, he'.le⟩
  · exact ⟨Nat.le_refl _, by dsimp only; decide, by dsimp only; omega, by dsimp only; omega⟩

theorem pack_finiteOf (s : Sign) {m n : Nat} {e : Int} (hlow : 2 ^ 52 ≤ m) (hhigh : m < 2 ^ 53)
    (hn : n < 2047) (he : e + 1075 = n) :
    UnpackedFloat.pack .binary64 (finiteOf s ⟨m, e⟩) =
      packComponents .binary64 s (.ofNat 11 n) (.ofNat 52 m) := by
  have hm : m ≠ 0 := by omega
  have hlog : m.log2 = 52 := log2_eq (k := 0) (by simpa) (by simpa)
  simp only [finiteOf, hm, ↓reduceDIte, UnpackedFloat.pack, Format.exponentBias, hlog,
    Format.mantissaBits]
  norm_num
  rw [show (e + 1023 + 52).toNat = n by omega, if_neg (by omega)]

theorem unpack_packComponents (s : Sign) {n : Nat} (m : BitVec 52) (hn : n ≠ 0) (hn' : n < 2047) :
    UnpackedFloat.unpack .binary64 (packComponents .binary64 s (.ofNat 11 n) m) =
      finiteOf s ⟨2 ^ 52 + m.toNat, n - 1075⟩ := by
  have hnat : (BitVec.ofNat 11 n).toNat = n := by
    rw [BitVec.toNat_ofNat]
    omega
  have hne {v : BitVec 11} (hv : n ≠ v.toNat) : BitVec.ofNat 11 n ≠ v :=
    fun h => hv (by rw [← h, hnat])
  have hinf : BitVec.ofNat 11 n ≠ -1#11 := hne hn'.ne
  have hzero : BitVec.ofNat 11 n ≠ 0#11 := hne hn
  simp only [UnpackedFloat.unpack, unpackExponent_packComponents, unpackMantissa_packComponents,
    unpackSign_packComponents, Sign.ofBitVec_toBitVec, hinf, hzero, ↓reduceIte]
  refine finite_eq_finiteOf (toNat_cons_one m) ?_
  rw [hnat]
  rfl

theorem unpack_pack {b : Binary} (s : Sign) (hb : b.Normal) :
    (Float.Model.pack (finiteOf s b)).unpack = finiteOf s b := by
  obtain ⟨m, e⟩ := b
  obtain ⟨hlow, hhigh, he, he'⟩ := hb
  dsimp only at hlow hhigh he he'
  obtain ⟨n, hn⟩ : ∃ n : Nat, e + 1075 = n := ⟨(e + 1075).toNat, by omega⟩
  have hmantissa : 2 ^ 52 + (BitVec.ofNat 52 m).toNat = m := by
    rw [BitVec.toNat_ofNat]
    omega
  show UnpackedFloat.unpack .binary64 (UnpackedFloat.pack .binary64 (finiteOf s ⟨m, e⟩)) = _
  rw [pack_finiteOf s hlow hhigh (by omega) hn, unpack_packComponents s _ (by omega) (by omega),
    hmantissa, show (n : Int) - 1075 = e by omega]

/-! ### Natural numbers as floats -/

theorem mul_finiteOf {m m' : Nat} {e e' : Int} (s s' : Sign) (hm : m ≠ 0) (hm' : m' ≠ 0) :
    UnpackedFloat.mul .binary64 (finiteOf s ⟨m, e⟩) (finiteOf s' ⟨m', e'⟩) =
      roundWithAccuracy .binary64 (s * s') (m * m') (e + e') .exact := by
  simp only [finiteOf, hm, hm', ↓reduceDIte, UnpackedFloat.mul]

theorem unpack_mul_one {x : Float} {b : Binary} (hb : b.Normal)
    (hx : x.toModel.unpack = finiteOf .positive b) :
    (x * Float.ofBits 0x3FF0000000000000).toModel.unpack = finiteOf .positive b := by
  obtain ⟨m, e⟩ := b
  have hone : (Float.ofBits 0x3FF0000000000000).toModel.unpack =
      finiteOf .positive ⟨2 ^ 52, -52⟩ := rfl
  obtain ⟨hlow, hhigh, he, he'⟩ := id hb
  dsimp only at hlow hhigh he he'
  have hquotient : m * 2 ^ 52 / 2 ^ 52 = m := Nat.mul_div_cancel _ (by decide)
  show (Float.Model.pack (UnpackedFloat.mul .binary64 _ _)).unpack = _
  rw [hx, hone, mul_finiteOf _ _ (by omega) (by decide),
    roundWithAccuracy_eq (k := 52) _ (by rwa [hquotient]) (by rwa [hquotient]) (by omega),
    halfEven_mul _ (by decide), carried, if_pos hhigh, show e + -52 + (52 : Nat) = e by omega]
  exact unpack_pack _ hb

/-- A number of at most 53 digits, with zeros behind it up to 53. -/
def spread (n : Nat) : Binary := ⟨n * 2 ^ (52 - n.log2), (n.log2 : Int) - 52⟩

theorem number_spread {n : Nat} (hlog : n.log2 ≤ 52) : (spread n).number = n := by
  have hexponent : (n.log2 : Int) - 52 = -((52 - n.log2 : Nat) : Int) := by omega
  rw [Binary.number, spread, hexponent, zpow_neg, zpow_natCast]
  push_cast
  rw [mul_assoc, mul_inv_cancel₀ (by positivity), mul_one]

theorem normal_spread {n : Nat} (hn : n ≠ 0) (hlog : n.log2 ≤ 52) : (spread n).Normal := by
  have hpow : 2 ^ n.log2 * 2 ^ (52 - n.log2) = 2 ^ 52 := by
    rw [← Nat.pow_add, show n.log2 + (52 - n.log2) = 52 by omega]
  refine ⟨?_, ?_, by dsimp only [spread]; omega, by dsimp only [spread]; omega⟩
  · calc 2 ^ 52 = 2 ^ n.log2 * 2 ^ (52 - n.log2) := hpow.symm
      _ ≤ n * 2 ^ (52 - n.log2) := Nat.mul_le_mul_right _ (Nat.log2_self_le hn)
  · calc n * 2 ^ (52 - n.log2) < 2 ^ (n.log2 + 1) * 2 ^ (52 - n.log2) :=
          Nat.mul_lt_mul_of_pos_right Nat.lt_log2_self (Nat.two_pow_pos _)
      _ = 2 ^ 53 := by rw [Nat.pow_succ, Nat.mul_right_comm, hpow, ← Nat.pow_succ]

theorem round_eq_spread {n : Nat} (hn : n ≠ 0) (hlog : n.log2 ≤ 52) :
    UnpackedFloat.round .binary64 .positive n 0 = finiteOf .positive (spread n) := by
  obtain ⟨hlow, hhigh, -, -⟩ := normal_spread hn hlog
  dsimp only [spread] at hlow hhigh
  have htarget : Format.binary64.targetExponent (totalExponent n 0) = (n.log2 : Int) - 52 := by
    simp only [Format.targetExponent, totalExponent, Format.mantissaBits, Format.minExponent]
    omega
  have hround : halfEven (n * 2 ^ (52 - n.log2)) (2 ^ 0) = n * 2 ^ (52 - n.log2) := by
    simpa using halfEven_mul (n * 2 ^ (52 - n.log2)) Nat.one_pos
  rw [UnpackedFloat.round, htarget, decreaseExponent,
    show (0 - ((n.log2 : Int) - 52)).toNat = 52 - n.log2 by omega, Nat.shiftLeft_eq,
    show (0 : Int) - ((52 - n.log2 : Nat) : Int) = (n.log2 : Int) - 52 by omega]
  dsimp only
  rw [roundWithAccuracy_eq (k := 0) .positive (by simpa) (by simpa) (by omega), hround, carried,
    if_pos hhigh, spread]
  simp

/-- A number of at most 53 digits is computed from its bits, times one. -/
theorem unpack_ofNat_small {n : Nat} (hn : n ≠ 0) (hsmall : n < 2 ^ 53) :
    (Float.ofNat n).toModel.unpack = finiteOf .positive (spread n) := by
  have hlog : n.log2 ≤ 52 := Nat.le_of_lt_succ ((Nat.log2_lt hn).2 hsmall)
  have hnormal := normal_spread hn hlog
  have hword : n.toUInt64.toNat = n := Nat.mod_eq_of_lt (by omega)
  have hofNat : UnpackedFloat.ofNat .binary64 n = finiteOf .positive (spread n) := by
    rw [UnpackedFloat.ofNat, UnpackedFloat.ofInt, UnpackedFloat.normalize,
      Int.compare_eq_gt.2 (by omega)]
    exact round_eq_spread hn hlog
  have hfactor : n.toUInt64.toFloat.toModel.unpack = finiteOf .positive (spread n) := by
    show (Float.Model.pack (UnpackedFloat.ofNat .binary64 n.toUInt64.toNat)).unpack = _
    rw [hword, hofNat]
    exact unpack_pack _ hnormal
  have hproduct : Float.ofNat n = n.toUInt64.toFloat * Float.ofBits 0x3FF0000000000000 := by
    show (if h : n < 2 ^ 53 ∧ 0 ≤ 22 then _ else _) = _
    rw [dif_pos ⟨hsmall, by decide⟩]
    rfl
  rw [hproduct]
  exact unpack_mul_one hnormal hfactor

theorem ofScientific_eq {n : Nat} (hn : n ≠ 0) : UnpackedFloat.ofScientific .binary64 n 0 =
    roundWithAccuracy .binary64 .positive (n * 2 ^ 53) (-53) .exact := by
  have hsafe : ¬ (0 : Int) < -(2 ^ Format.binary64.exponentBits + n.log2) := by
    have : (0 : Int) ≤ 2 ^ Format.binary64.exponentBits := by positivity
    omega
  rw [UnpackedFloat.ofScientific, dif_neg hn, if_neg (by decide), if_neg hsafe,
    if_pos (by decide)]
  simp only [UnpackedFloat.mul, Nat.shiftLeft_eq, Format.mantissaBits]
  show roundWithAccuracy .binary64 .positive (n * 2 ^ 53 * 1) (-53 + 0) .exact = _
  rw [Nat.mul_one]
  rfl

/-- A number of more digits is rounded as a mantissa with 53 zeros behind it. -/
theorem unpack_ofNat_large {n : Nat} (hlarge : 2 ^ 53 ≤ n) (hword : n < 2 ^ 64) :
    ∃ b, b.Normal ∧ (Float.ofNat n).toModel.unpack = finiteOf .positive b ∧
      b.number = roundedNat n := by
  have hn : n ≠ 0 := by omega
  have hlog : 53 ≤ n.log2 := (Nat.le_log2 hn).2 hlarge
  have hlog' : n.log2 < 64 := (Nat.log2_lt hn).2 hword
  obtain ⟨hlow, hhigh⟩ := leading_digits hn (by omega)
  have hbounds := halfEven_bounds n (2 ^ (n.log2 - 52))
  have hexponent : ((n.log2 : Int) - 52) = (n.log2 - 52 : Nat) := by omega
  have hnormal : (carried (halfEven n (2 ^ (n.log2 - 52))) (n.log2 - 52)).Normal :=
    normal_carried (by omega) (by omega) (by omega)
  have hquotient : n * 2 ^ 53 / 2 ^ (n.log2 - 52 + 53) = n / 2 ^ (n.log2 - 52) := by
    rw [Nat.pow_add, Nat.mul_div_mul_right _ _ (by decide)]
  have hmodel : Float.ofNat n = .ofModel (Float.Model.ofScientific n 0) := by
    show (if h : n < 2 ^ 53 ∧ 0 ≤ 22 then _ else _) = _
    rw [dif_neg (by omega)]
    rfl
  refine ⟨_, hnormal, ?_, ?_⟩
  · rw [hmodel]
    show (Float.Model.pack (UnpackedFloat.ofScientific .binary64 n 0)).unpack = _
    rw [ofScientific_eq hn, roundWithAccuracy_eq (k := n.log2 - 52 + 53) _ (by rwa [hquotient])
      (by rwa [hquotient]) (by omega), Nat.pow_add, halfEven_mul_mul _ _ (by decide),
      show -53 + ((n.log2 - 52 + 53 : Nat) : Int) = n.log2 - 52 by omega]
    exact unpack_pack _ hnormal
  · rw [number_carried (by omega), roundedNat, hexponent, zpow_natCast]
    push_cast
    rfl

theorem unpack_ofNat {n : Nat} (hn : n ≠ 0) (hword : n < 2 ^ 64) :
    ∃ b, b.Normal ∧ (Float.ofNat n).toModel.unpack = finiteOf .positive b ∧
      b.number = roundedNat n := by
  rcases Nat.lt_or_ge n (2 ^ 53) with hsmall | hlarge
  · have hlog : n.log2 ≤ 52 := Nat.le_of_lt_succ ((Nat.log2_lt hn).2 hsmall)
    refine ⟨spread n, normal_spread hn hlog, unpack_ofNat_small hn hsmall, ?_⟩
    rw [number_spread hlog, roundedNat_of_le hsmall.le]
  · exact unpack_ofNat_large hlarge hword

/-! ### Widening -/

theorem unpack_neg {x : Float} {b : Binary} (hb : b.Normal)
    (hx : x.toModel.unpack = finiteOf .positive b) :
    (-x).toModel.unpack = finiteOf .negative b := by
  have hneg : (finiteOf .positive b).neg = finiteOf .negative b := by
    have hm : b.mantissa ≠ 0 := by
      have := hb.mantissa_ge
      omega
    rw [finiteOf, dif_neg hm, finiteOf, dif_neg hm]
    rfl
  show (Float.Model.pack (UnpackedFloat.neg _)).unpack = _
  rw [hx, hneg]
  exact unpack_pack _ hb

/-- A widened integer is unpacked to the integer rounded to 53 digits. -/
theorem unpack_widen (n : Int64) :
    ∃ s b, (widen n).toModel.unpack = finiteOf s b ∧ signed s b = rounded n.toInt := by
  have hlow := n.le_toInt
  have hhigh := n.toInt_lt
  unfold widen
  generalize n.toInt = k at hlow hhigh
  rcases lt_trichotomy k 0 with hneg | rfl | hpos
  · obtain ⟨j, rfl⟩ := Int.eq_negSucc_of_lt_zero hneg
    obtain ⟨b, hb, hunpack, hnumber⟩ := unpack_ofNat (n := j + 1) (by omega) (by omega)
    refine ⟨.negative, b, unpack_neg hb hunpack, ?_⟩
    rw [signed, hnumber, Int.negSucc_eq, ← Int.natCast_succ, rounded_neg, rounded_natCast]
    push_cast
    rfl
  · refine ⟨.positive, ⟨0, 0⟩, rfl, ?_⟩
    rw [signed, Binary.number_eq_zero.2 rfl, rounded, Int.sign_zero, Int.zero_mul, Int.cast_zero]
  · obtain ⟨m, rfl⟩ := Int.eq_ofNat_of_zero_le hpos.le
    obtain ⟨b, hb, hunpack, hnumber⟩ := unpack_ofNat (n := m) (by omega) (by omega)
    refine ⟨.positive, b, hunpack, ?_⟩
    rw [signed, hnumber, rounded_natCast, Int.cast_natCast]

theorem isFinite_widen (n : Int64) : (widen n).isFinite := by
  obtain ⟨s, b, hunpack, -⟩ := unpack_widen n
  exact (numberOf_of_unpack hunpack).1

/-- A widened integer denotes the integer rounded to 53 digits. -/
theorem numberOf_widen (n : Int64) : numberOf (widen n) = rounded n.toInt := by
  obtain ⟨s, b, hunpack, hnumber⟩ := unpack_widen n
  rw [(numberOf_of_unpack hunpack).2, hnumber]

example : rounded (-9007199254740993) = -9007199254740992 := by decide

/-! ### Numbers of 53 digits -/

/-- With a smaller exponent, 53 digits do not reach far. -/
theorem Binary.number_lt {b : Binary} (hb : b.Canonical) {k : Nat} (h : b.exponent < k) :
    b.number < (2 ^ (52 + k) : Nat) := by
  have hmantissa : (b.mantissa : ℚ) < 2 ^ 53 := mod_cast hb.mantissa_lt
  calc b.number < 2 ^ 53 * 2 ^ b.exponent := mul_lt_mul_of_pos_right hmantissa (by positivity)
    _ ≤ 2 ^ 53 * 2 ^ ((k : Int) - 1) := by
        gcongr
        · norm_num
        · omega
    _ = (2 ^ (52 + k) : Nat) := by
        rw [zpow_sub₀ (by decide), zpow_natCast]
        push_cast
        ring

/-- With a greater exponent, a number is a multiple of a power of two. -/
theorem Binary.exists_number_eq {b : Binary} {k : Nat} (h : (k : Int) ≤ b.exponent) :
    ∃ m : Nat, b.number = (m * 2 ^ k : Nat) := by
  obtain ⟨j, hj⟩ := Int.le.dest h
  refine ⟨b.mantissa * 2 ^ j, ?_⟩
  rw [Binary.number, ← hj, ← Nat.cast_add, zpow_natCast, pow_add]
  push_cast
  ring

/-- No number of 53 digits is nearer. -/
theorem roundedNat_nearest (n : Nat) {b : Binary} (hb : b.Canonical) :
    |(n : ℚ) - roundedNat n| ≤ |(n : ℚ) - b.number| := by
  have nearest (m : Nat) : |(n : ℚ) - roundedNat n| ≤
      |(n : ℚ) - (m * 2 ^ (n.log2 - 52) : Nat)| := by
    have h := halfEven_nearest n m (Nat.two_pow_pos (n.log2 - 52))
    rw [← Int.ofNat_le, Int.natCast_natAbs, Int.natCast_natAbs] at h
    exact_mod_cast h
  rcases le_or_gt ((n.log2 - 52 : Nat) : Int) b.exponent with hle | hlt
  · obtain ⟨m, hm⟩ := Binary.exists_number_eq hle
    rw [hm]
    exact nearest m
  · have hnumber := Binary.number_lt hb hlt
    by_cases hn : n ≤ 2 ^ 53
    · rw [roundedNat_of_le hn, sub_self, abs_zero]
      exact abs_nonneg _
    · have hlog : 53 ≤ n.log2 := (Nat.le_log2 (by omega)).2 (by omega)
      have hlow : ((2 ^ (52 + (n.log2 - 52)) : Nat) : ℚ) ≤ n := by
        rw [show 52 + (n.log2 - 52) = n.log2 by omega]
        exact Nat.cast_le.2 (Nat.log2_self_le (by omega))
      refine (nearest (2 ^ 52)).trans ?_
      rw [← Nat.pow_add, abs_of_nonneg (sub_nonneg.2 hlow), abs_of_nonneg (by linarith)]
      linarith

/-- An integer that a float denotes is not changed by rounding. -/
theorem rounded_of_numberOf {x : Float} {n : Int} (h : numberOf x = n) : rounded n = n := by
  have hnumber : (Binary.ofFloat x).number = (n.natAbs : ℚ) := by
    rw [← abs_signed _ (.ofFloat x), ← numberOf_eq_signed, h, Nat.cast_natAbs, Int.cast_abs]
  have hnearest := roundedNat_nearest n.natAbs (Binary.canonical_ofFloat x)
  rw [hnumber, sub_self, abs_zero] at hnearest
  apply rounded_of_roundedNat
  have hzero := abs_nonpos_iff.1 hnearest
  exact_mod_cast (sub_eq_zero.1 hzero).symm

/-- No float denotes a number that is nearer to an integer than what the widened integer denotes. -/
theorem widen_nearest (n : Int64) (x : Float) :
    |(n.toInt : ℚ) - numberOf (widen n)| ≤ |(n.toInt : ℚ) - numberOf x| := by
  have habs : |(n.toInt : ℚ) - rounded n.toInt| =
      |(n.toInt.natAbs : ℚ) - roundedNat n.toInt.natAbs| := by
    generalize n.toInt = k
    rcases Int.natAbs_eq k with hk | hk
    · conv_lhs => rw [hk, rounded_natCast, Int.cast_natCast, Int.cast_natCast]
    · conv_lhs => rw [hk, rounded_neg, rounded_natCast, Int.cast_neg, Int.cast_neg,
        neg_sub_neg, abs_sub_comm, Int.cast_natCast, Int.cast_natCast]
  rw [numberOf_widen, habs]
  refine (roundedNat_nearest _ (Binary.canonical_ofFloat x)).trans ?_
  rw [← abs_signed _ (.ofFloat x), ← numberOf_eq_signed, Nat.cast_natAbs, Int.cast_abs]
  exact abs_abs_sub_abs_le _ _

end Lox
