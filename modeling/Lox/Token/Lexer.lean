import Lox.Text.Position
import Lox.Token

/-!
# Lexing

A text is cut into pieces, each either blank (a white space character or a comment) or the text
of a token. `munch` says what the piece at the head of a text is and how long it is; `lex` walks
over the pieces and places each token by line and span.

* `LexFault`, `LexError`: why and where a text has no next piece;
* `munch`, `lex`.
-/

namespace Lox

/-- Why a text has no next piece. -/
inductive LexFault
  | unterminatedString
  | unterminatedComment
  | unexpectedCharacter (c : Char)
  | integerTooLarge
  deriving DecidableEq, Repr

/-- The message of a fault. -/
def LexFault.message : LexFault → String
  | unterminatedString => "unterminated string"
  | unterminatedComment => "unterminated block comment"
  | unexpectedCharacter c => s!"unexpected character '{c}'"
  | integerTooLarge => "integer literal too large"

/-- A fault with the text that it covers, and the line after that text. -/
structure LexError where
  fault : LexFault
  span : Span
  line : Nat
  deriving DecidableEq, Repr

/-- The full text of an error. -/
def LexError.message (e : LexError) : String := s!"[line {e.line}] Error: {e.fault.message}"

/-! ### Pieces -/

/-- A piece of text: blank, or a token of a kind with a payload. -/
inductive Piece
  | blank
  | token (kind : Kind) (payload : Option Payload)
  deriving DecidableEq

/-- Whether a character may stand in a word. -/
def isWordChar (c : Char) : Bool := c.isAlphanum || c == '_'

/-- Whether a character may start a word. -/
def isWordStart (c : Char) : Bool := c.isAlpha || c == '_'

/-- The value of a digit. -/
def digitValue (c : Char) : Nat := c.toNat - '0'.toNat

/-- The number that digits write, most significant first, after the number `n`. -/
def digitsValue (n : Nat) (ds : List Char) : Nat := ds.foldl (fun n d => 10 * n + digitValue d) n

/-- The length of what follows the opening of a block comment, up to and with its end. -/
def commentLength? (n : Nat) : List Char → Option Nat
  | '*' :: '/' :: _ => some (n + 2)
  | _ :: cs => commentLength? (n + 1) cs
  | [] => none

/-- The number of characters at the head of a text that satisfy `p`. -/
def runLength (p : Char → Bool) (cs : List Char) : Nat := (cs.takeWhile p).length

/-- The largest integer that a literal may write. -/
def maxInteger : Nat := Nat.pow 2 63 - 1

/-- The piece that starts with the digit `c`: an integer, or with a point between digits a
float. -/
def munchNumber (c : Char) (cs : List Char) : Except LexFault Piece × Nat :=
  let digits := cs.takeWhile Char.isDigit
  match cs.drop digits.length with
  | '.' :: d :: rest =>
    if d.isDigit then
      let fraction := (d :: rest).takeWhile Char.isDigit
      let mantissa := digitsValue 0 (c :: digits ++ fraction)
      let value := Float.ofScientific mantissa true fraction.length
      (.ok (.token .float (some (.float value))), digits.length + 1 + fraction.length)
    else munchInteger c digits
  | _ => munchInteger c digits
where
  /-- The piece that consists of the digits `c :: digits`. -/
  munchInteger (c : Char) (digits : List Char) : Except LexFault Piece × Nat :=
    let value := digitsValue 0 (c :: digits)
    if value ≤ maxInteger then
      (.ok (.token .integer (some (.int (.ofNat value)))), digits.length)
    else (.error .integerTooLarge, digits.length)

/-- The piece that starts with a quote: all up to the next quote. -/
def munchString (cs : List Char) : Except LexFault Piece × Nat :=
  let contents := cs.takeWhile (· != '"')
  if contents.length < cs.length then
    (.ok (.token .string (some (.str (.ofList contents)))), contents.length + 1)
  else (.error .unterminatedString, cs.length)

/-- The piece that starts with the letter `c`. -/
def munchWord (c : Char) (cs : List Char) : Except LexFault Piece × Nat :=
  let word := cs.takeWhile isWordChar
  (.ok (.token (.ofWord (.ofList (c :: word))) none), word.length)

/-- The piece that starts with a slash: a comment or an operator. -/
def munchSlash (cs : List Char) : Except LexFault Piece × Nat :=
  match cs with
  | '/' :: _ => (.ok .blank, runLength (· != '\n') cs)
  | '*' :: rest =>
    match commentLength? 1 rest with
    | some n => (.ok .blank, n)
    | none => (.error .unterminatedComment, cs.length)
  | _ => (.ok (.token .slash none), 0)

/-- An operator that is longer if a certain character follows. -/
def munchLonger (cs : List Char) (short : Kind) (long : List (Char × Kind)) :
    Except LexFault Piece × Nat :=
  match cs with
  | d :: _ =>
    match long.lookup d with
    | some kind => (.ok (.token kind none), 1)
    | none => (.ok (.token short none), 0)
  | [] => (.ok (.token short none), 0)

/-- The piece that starts with the character `c`, which is neither blank nor of an operator. -/
def munchPlain (c : Char) (cs : List Char) : Except LexFault Piece × Nat :=
  if c.isDigit then munchNumber c cs
  else if isWordStart c then munchWord c cs
  else (.error (.unexpectedCharacter c), 0)

/-- The piece at the head of `c :: cs`, or the fault there, and how many characters of `cs` it
takes. -/
def munch (c : Char) (cs : List Char) : Except LexFault Piece × Nat :=
  match c with
  | ' ' | '\t' | '\r' | '\n' => (.ok .blank, 0)
  | '(' => (.ok (.token .leftParen none), 0)
  | ')' => (.ok (.token .rightParen none), 0)
  | '{' => (.ok (.token .leftBrace none), 0)
  | '}' => (.ok (.token .rightBrace none), 0)
  | ',' => (.ok (.token .comma none), 0)
  | '.' => (.ok (.token .dot none), 0)
  | ';' => (.ok (.token .semicolon none), 0)
  | '-' => (.ok (.token .minus none), 0)
  | '+' => (.ok (.token .plus none), 0)
  | '*' => (.ok (.token .star none), 0)
  | '&' => (.ok (.token .ampersand none), 0)
  | '|' => (.ok (.token .pipe none), 0)
  | '^' => (.ok (.token .caret none), 0)
  | '~' => (.ok (.token .tilde none), 0)
  | '/' => munchSlash cs
  | '!' => munchLonger cs .bang [('=', .bangEqual)]
  | '=' => munchLonger cs .equal [('=', .equalEqual)]
  | '<' => munchLonger cs .less [('=', .lessEqual), ('<', .shiftLeft)]
  | '>' => munchLonger cs .greater [('=', .greaterEqual), ('>', .shiftRight)]
  | '"' => munchString cs
  | c => munchPlain c cs

/-! ### The token list -/

/-- The tokens of a text that stands at `p`, after the tokens of `found`, last first. -/
def lexFrom (found : List Token) (p : Position) : List Char → Except LexError (List Token)
  | [] => .ok (Token.endOfInput p.line p.offset :: found).reverse
  | c :: cs =>
    let (piece, n) := munch c cs
    let text := c :: cs.take n
    let stop := p.afterAll text
    let span := Span.mk p.offset stop.offset
    match piece with
    | .error fault => .error ⟨fault, span, stop.line⟩
    | .ok .blank => lexFrom found stop (cs.drop n)
    | .ok (.token kind payload) =>
      lexFrom (⟨kind, .ofList text, payload, p.line, span⟩ :: found) stop (cs.drop n)
termination_by cs => cs.length
decreasing_by all_goals rw [List.length_drop, List.length_cons]; omega

/-- The tokens of a source, with the end marker last, or the first fault. -/
def lex (source : String) : Except LexError (List Token) :=
  lexFrom [] .start source.toList

end Lox
