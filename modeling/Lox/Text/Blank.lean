/-!
# Blank text

* `blankRanges`: the characters with the Unicode property `White_Space`;
* `Char.isBlank`, `trimBlank`.
-/

namespace Lox

/-- The ranges of the code points with the property `White_Space`. -/
def blankRanges : List (Nat × Nat) :=
  [(0x09, 0x0d), (0x20, 0x20), (0x85, 0x85), (0xa0, 0xa0), (0x1680, 0x1680), (0x2000, 0x200a),
    (0x2028, 0x2029), (0x202f, 0x202f), (0x205f, 0x205f), (0x3000, 0x3000)]

/-- Whether a character is white space. -/
def isBlank (c : Char) : Bool := blankRanges.any fun (lo, hi) => lo ≤ c.toNat && c.toNat ≤ hi

/-- A text without the white space at its start and its end. -/
def trimBlank (s : String) : String :=
  .ofList ((s.toList.dropWhile isBlank).reverse.dropWhile isBlank).reverse

/-- The property holds of 25 code points. -/
example : (blankRanges.map fun (lo, hi) => hi - lo + 1).sum = 25 := by decide

end Lox
