/-!
# Decimal numbers

* `Decimal`: a number with finitely many decimal places, and `Decimal.render`, its positional
  text;
* `Range`: a number between two bounds, as integers over one denominator;
* `Range.shortest`: the decimal number of fewest digits within the bounds that is nearest to the
  number, the greater of two that are equally near.
-/

namespace Lox

/-- The number `digits / 10 ^ places`. -/
structure Decimal where
  digits : Nat
  places : Nat
  deriving DecidableEq, Repr

namespace Decimal

/-- The same number without zeros at the end of its places. -/
def trim (digits : Nat) : Nat → Decimal
  | 0 => ⟨digits, 0⟩
  | places + 1 => if digits % 10 = 0 then trim (digits / 10) places else ⟨digits, places + 1⟩

/-- The digits of the integral part, a point, and the decimal places. -/
def render (d : Decimal) : String :=
  let places := toString (d.digits % Nat.pow 10 d.places)
  let zeros := String.ofList (List.replicate (d.places - places.length) '0')
  toString (d.digits / Nat.pow 10 d.places) ++ "." ++ zeros ++ places

end Decimal

/-- The number `value / denominator` with a lower and an upper bound over the same denominator,
which belong to the range if it is closed. -/
structure Range where
  lower : Nat
  value : Nat
  upper : Nat
  denominator : Nat
  closed : Bool
  deriving DecidableEq, Repr

namespace Range

/-- Whether `n / d` is within the bounds. -/
def contains (r : Range) (n d : Nat) : Bool :=
  let low := r.lower * d
  let mid := n * r.denominator
  let high := r.upper * d
  if r.closed then low ≤ mid && mid ≤ high else low < mid && mid < high

/-- The number of decimal places, at most `bound`, at which a positive number that is less than 1
shows its first digit, less one. -/
def leadingZeros (value denominator : Nat) : Nat → Nat
  | 0 => 0
  | bound + 1 =>
    if denominator ≤ 10 * value then 0
    else leadingZeros (10 * value) denominator bound + 1

/-- The grid of multiples of `10 ^ shift / 10 ^ places` around the number: the multiple below or
at it, and the next one, each if it is within the bounds; of two, the nearer. -/
def nearest? (r : Range) (shift places : Nat) : Option Nat :=
  let step := r.denominator * Nat.pow 10 shift
  let scaled := r.value * Nat.pow 10 places
  let below := scaled / step
  let inRange (n : Nat) := r.contains (n * Nat.pow 10 shift) (Nat.pow 10 places)
  match inRange below, inRange (below + 1) with
  | true, true => if 2 * (scaled % step) < step then some below else some (below + 1)
  | true, false => some below
  | false, true => some (below + 1)
  | false, false => none

/-- The nearest number of `n` or more digits, at most `bound` more, where the first digit stands
`whole` places before the point, or else `zeros` places behind the first place after it. -/
def search (r : Range) (whole zeros : Nat) : (n bound : Nat) → Decimal
  | n, 0 => ⟨r.value * Nat.pow 10 n / r.denominator, n⟩
  | n, bound + 1 =>
    let shift := whole - n
    let places := if whole = 0 then zeros + n else n - whole
    match r.nearest? shift places with
    | some digits => .trim (digits * Nat.pow 10 shift) places
    | none => search r whole zeros (n + 1) bound

/-- The decimal number of fewest digits, at most 17, within the bounds. -/
def shortest (r : Range) : Decimal :=
  let whole := if r.value < r.denominator then 0 else (toString (r.value / r.denominator)).length
  let zeros := leadingZeros r.value r.denominator (r.denominator.log2 + 1)
  search r whole zeros 1 17

end Range

end Lox
