import Lox.Decimal.Float
import Lox.Syntax

/-!
# Values

* `Function`, `Native`: what can be called, beside classes;
* `Value`, with `Value.type`, `Value.truthy`, `Value.number?`, `Value.arity?`;
* `Value.same`: equal content for data, identity for objects;
* `Value.display`: the text that `print` shows.

Functions, natives, classes and objects are told apart by an identity number; two of one sort
with one number are the same.
-/

namespace Lox

/-- The frames in which a name is looked up, by number, innermost first. -/
abbrev Scope := List Nat

/-- A function written in a program, with the frames around it and that program. A function
without a name is an expression. -/
structure Function where
  name : Option String
  params : List String
  body : List Stmt
  scope : Scope
  program : Program

/-- The jobs of functions that are not written in a program. -/
inductive Builtin
  | clock
  | sqrt
  | noop
  deriving DecidableEq, Repr

/-- A function that is not written in a program. -/
structure Native where
  name : String
  arity : Nat
  builtin : Builtin
  deriving DecidableEq, Repr

/-- Values. An object carries the name of its class, and its identity is where its fields are
kept. -/
inductive Value
  | nil
  | bool (value : Bool)
  | int (value : Int64)
  | float (value : Float)
  | str (value : String)
  | function (id : Nat) (function : Function)
  | native (id : Nat) (native : Native)
  | cls (id : Nat) (name : String)
  | object (id : Nat) (className : String)

instance : Inhabited Value := ⟨.nil⟩

/-- The sorts of values that messages tell apart. -/
inductive ValueType
  | nil
  | bool
  | int
  | float
  | str
  | function
  | cls
  | object
  deriving DecidableEq, Repr

/-- The name of a sort. -/
def ValueType.name : ValueType → String
  | nil => "nil"
  | bool => "bool"
  | int => "int"
  | float => "float"
  | str => "str"
  | function => "function"
  | cls => "class"
  | object => "instance"

/-- Integers and floats. -/
def ValueType.isNumeric : ValueType → Bool
  | int | float => true
  | _ => false

/-- The float nearest to an integer, of two the even one. -/
def widen (n : Int64) : Float := .ofInt n.toInt

namespace Value

/-- The sort of a value; natives are functions. -/
def type : Value → ValueType
  | nil => .nil
  | bool _ => .bool
  | int _ => .int
  | float _ => .float
  | str _ => .str
  | function _ _ => .function
  | native _ _ => .function
  | cls _ _ => .cls
  | object _ _ => .object

/-- Every value but `nil` and `false` counts as true. -/
def truthy : Value → Bool
  | nil => false
  | bool b => b
  | _ => true

/-- A number as a float. -/
def number? : Value → Option Float
  | int n => some (widen n)
  | float x => some x
  | _ => none

/-- The number of arguments that a value has to be called with, if it can be called. -/
def arity? : Value → Option Nat
  | function _ f => some f.params.length
  | native _ f => some f.arity
  | cls _ _ => some 0
  | _ => none

/-- Whether two values are the same: data with equal content, or one and the same object. -/
def same : Value → Value → Bool
  | nil, nil => true
  | bool a, bool b => a == b
  | int a, int b => a == b
  | float a, float b => a == b
  | str a, str b => a == b
  | function i _, function j _ => i == j
  | native i _, native j _ => i == j
  | cls i _, cls j _ => i == j
  | object i _, object j _ => i == j
  | _, _ => false

/-- The text that `print` shows. -/
def display : Value → String
  | nil => "nil"
  | bool true => "true"
  | bool false => "false"
  | int n => toString n.toInt
  | float x => renderFloat x
  | str s => s
  | function _ f =>
    match f.name with
    | some name => s!"<fn {name}>"
    | none => "<fn>"
  | native _ f => s!"<native fn {f.name}>"
  | cls _ name => s!"<class {name}>"
  | object _ name => s!"<{name} instance>"

end Value

end Lox
