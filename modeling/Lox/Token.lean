import Lox.Text.Span

/-!
# Tokens

* `Kind`: what a token is, with `Kind.name`, its name in messages;
* `Payload`: the value of a number or string token;
* `Token`: a kind with its text, payload, line and span;
* `Kind.keywords`: the reserved words.
-/

namespace Lox

/-- What a token is. -/
inductive Kind
  | leftParen
  | rightParen
  | leftBrace
  | rightBrace
  | comma
  | dot
  | semicolon
  | minus
  | plus
  | slash
  | star
  | ampersand
  | pipe
  | caret
  | tilde
  | bang
  | bangEqual
  | equal
  | equalEqual
  | greater
  | greaterEqual
  | shiftRight
  | less
  | lessEqual
  | shiftLeft
  | identifier
  | string
  | integer
  | float
  | andWord
  | breakWord
  | classWord
  | elseWord
  | falseWord
  | funWord
  | ifWord
  | nilWord
  | orWord
  | printWord
  | returnWord
  | trueWord
  | varWord
  | whileWord
  | endOfInput
  deriving DecidableEq, Repr

namespace Kind

/-- The name of a kind: its text where it has only one. -/
def name : Kind → String
  | leftParen => "("
  | rightParen => ")"
  | leftBrace => "\x7b"
  | rightBrace => "\x7d"
  | comma => ","
  | dot => "."
  | semicolon => ";"
  | minus => "-"
  | plus => "+"
  | slash => "/"
  | star => "*"
  | ampersand => "&"
  | pipe => "|"
  | caret => "^"
  | tilde => "~"
  | bang => "!"
  | bangEqual => "!="
  | equal => "="
  | equalEqual => "=="
  | greater => ">"
  | greaterEqual => ">="
  | shiftRight => ">>"
  | less => "<"
  | lessEqual => "<="
  | shiftLeft => "<<"
  | identifier => "identifier"
  | string => "string"
  | integer => "integer"
  | float => "float"
  | andWord => "and"
  | breakWord => "break"
  | classWord => "class"
  | elseWord => "else"
  | falseWord => "false"
  | funWord => "fun"
  | ifWord => "if"
  | nilWord => "nil"
  | orWord => "or"
  | printWord => "print"
  | returnWord => "return"
  | trueWord => "true"
  | varWord => "var"
  | whileWord => "while"
  | endOfInput => "end of input"

/-- The kinds of the reserved words, in the order of their texts. -/
def keywords : List Kind :=
  [andWord, breakWord, classWord, elseWord, falseWord, funWord, ifWord, nilWord, orWord,
    printWord, returnWord, trueWord, varWord, whileWord]

/-- Every kind. -/
def all : List Kind :=
  [leftParen, rightParen, leftBrace, rightBrace, comma, dot, semicolon, minus, plus, slash, star,
    ampersand, pipe, caret, tilde, bang, bangEqual, equal, equalEqual, greater, greaterEqual,
    shiftRight, less, lessEqual, shiftLeft, identifier, string, integer, float] ++
  keywords ++ [endOfInput]

theorem mem_all (k : Kind) : k ∈ all := by
  cases k <;> decide

/-- The kind that has a name. -/
def ofName? (s : String) : Option Kind := all.find? (·.name == s)

theorem ofName?_name (k : Kind) : ofName? k.name = some k := by
  cases k <;> decide

/-- The kind of a word: the reserved word of that text, or an identifier. -/
def ofWord (s : String) : Kind := (keywords.find? (·.name == s)).getD identifier

end Kind

/-- The value of a number or string token. -/
inductive Payload
  | int (value : Int64)
  | float (value : Float)
  | str (value : String)
  deriving DecidableEq

/-- A token: its kind, its text in the source, the value of a literal, the line that it starts
on, and its span. -/
structure Token where
  kind : Kind
  lexeme : String
  payload : Option Payload
  line : Nat
  span : Span
  deriving DecidableEq

namespace Token

/-- The marker at the end of a token list. -/
def endOfInput (line offset : Nat) : Token := ⟨.endOfInput, "", none, line, .point offset⟩

/-- Whether a token is the end marker. -/
def isEnd (t : Token) : Bool := t.kind == .endOfInput

end Token

end Lox
