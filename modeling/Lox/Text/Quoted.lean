/-!
# Quoted text and hexadecimal numbers

* `hex`: a number in hexadecimal digits, of at least a given width;
* `quoted`: a text between quotes, where quotes, backslashes and control characters are escaped.
-/

namespace Lox

/-- The lower case hexadecimal digits of `n`, with zeros in front up to `width` digits. -/
def hex (width n : Nat) : String :=
  let digits := Nat.toDigits 16 n
  .ofList (List.replicate (width - digits.length) '0' ++ digits)

/-- How a character is written between quotes. -/
def escaped (c : Char) : String :=
  match c with
  | '"' => "\\\""
  | '\\' => "\\\\"
  | '\n' => "\\n"
  | '\r' => "\\r"
  | '\t' => "\\t"
  | '\x08' => "\\b"
  | '\x0c' => "\\f"
  | c => if c.toNat < 0x20 then "\\u" ++ hex 4 c.toNat else c.toString

/-- A text between quotes. -/
def quoted (s : String) : String := "\"" ++ s.foldl (fun t c => t ++ escaped c) "" ++ "\""

/-- The bits of a float in hexadecimal; every NaN is written `nan`. -/
def floatBits (x : Float) : String := if x.isNaN then "nan" else hex 16 x.toBits.toNat

end Lox
