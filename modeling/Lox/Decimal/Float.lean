import Lox.Decimal

/-!
# The text of a float

A finite float is `mantissa * 2 ^ exponent`, up to its sign. A whole one is written with all its
digits and the place `.0`, any other with the fewest digits that no other float is nearest to;
neither with an exponent.

* `Binary`, `Binary.ofFloat`: the mantissa and the exponent;
* `Binary.range`: the numbers that round to a float;
* `renderFloat`.
-/

namespace Lox

/-- The number `mantissa * 2 ^ exponent`. -/
structure Binary where
  mantissa : Nat
  exponent : Int
  deriving DecidableEq, Repr

namespace Binary

/-- The absolute value of a finite float. -/
def ofFloat (x : Float) : Binary :=
  let bits : Nat := x.toBits.toNat
  let fraction : Nat := bits % Nat.pow 2 52
  let biased : Nat := bits / Nat.pow 2 52 % Nat.pow 2 11
  if biased = 0 then ⟨fraction, -1074⟩ else ⟨Nat.pow 2 52 + fraction, (biased : Int) - 1075⟩

/-- The integer that a number equals, if it is whole. -/
def whole? (b : Binary) : Option Nat :=
  match b.exponent with
  | .ofNat n => some (b.mantissa * Nat.pow 2 n)
  | .negSucc n =>
    if b.mantissa % Nat.pow 2 (n + 1) = 0 then some (b.mantissa / Nat.pow 2 (n + 1)) else none

/-- The numbers that are nearer to a float than to its neighbours. The neighbour below the least
mantissa is nearer than the one above it. A number half way belongs to the even mantissa. -/
def range (b : Binary) : Range :=
  let below := if b.mantissa = Nat.pow 2 52 then 1 else 2
  let up := Nat.pow 2 b.exponent.toNat
  ⟨(4 * b.mantissa - below) * up, 4 * b.mantissa * up, (4 * b.mantissa + 2) * up,
    4 * Nat.pow 2 (-b.exponent).toNat, b.mantissa % 2 == 0⟩

/-- The text of a number. -/
def render (b : Binary) : String :=
  match b.whole? with
  | some n => toString n ++ ".0"
  | none => b.range.shortest.render

end Binary

/-- The text of a float. -/
def renderFloat (x : Float) : String :=
  if x.isNaN then "NaN"
  else
    let sign := if Nat.pow 2 63 ≤ x.toBits.toNat then "-" else ""
    if x.isInf then sign ++ "inf" else sign ++ (Binary.ofFloat x).render

end Lox
