import PolishPseudocode.Program

/-! Values of a running program. Arrays are shared: a value only refers to one, and two references
are equal if they refer to the same array. Functions defined by a program are told apart by the
order of their definitions. -/

namespace PolishPseudocode

/-- The functions that every program can call. -/
inductive Builtin where
  | ceiling
  | floor
  | length
  | text
deriving DecidableEq, Repr

namespace Builtin

def name : Builtin → String
  | ceiling => "sufit"
  | floor => "podloga"
  | length => "dl"
  | text => "napis"

def all : List Builtin :=
  [ceiling, floor, length, text]

/-- Each of them takes one argument. -/
def arity (_ : Builtin) : Nat :=
  1

end Builtin

/-- A function that a program defined; `serial` counts the definitions carried out before it. -/
structure Function where
  serial : Nat
  parameters : List String
  body : Block
deriving Repr

def Function.arity (f : Function) : Nat :=
  f.parameters.length

inductive Value where
  | number (x : Float)
  | text (s : String)
  | bool (b : Bool)
  | array (id : Nat)
  | builtin (f : Builtin)
  | function (f : Function)
deriving Repr

/-- The types that equality tells apart. Arrays and functions are objects. -/
inductive Value.Class where
  | number
  | text
  | bool
  | object
deriving DecidableEq, Repr

def Value.class : Value → Value.Class
  | .number _ => .number
  | .text _ => .text
  | .bool _ => .bool
  | .array _ | .builtin _ | .function _ => .object

namespace Value

/-- Whether a value counts as true for negation: all do but zero, what is no number, the empty text
and the false truth value. -/
def isTruthy : Value → Bool
  | number x => x != 0 && !x.isNaN
  | text s => !s.isEmpty
  | bool b => b
  | array _ | builtin _ | function _ => true

/-- Equality of values: numbers by their value, so that what is no number differs from itself, texts
and truth values by content, objects by identity. -/
def isSame : Value → Value → Bool
  | number x, number y => x == y
  | text s, text t => s == t
  | bool a, bool b => a == b
  | array i, array j => i == j
  | builtin f, builtin g => f == g
  | function f, function g => f.serial == g.serial
  | _, _ => false

/-- The number of arguments a value takes when it is called, if it can be. -/
def arity? : Value → Option Nat
  | builtin f => some f.arity
  | function f => some f.arity
  | _ => none

def ofLiteral : Literal → Value
  | .number x => number x
  | .text s => text s
  | .bool b => bool b

end Value

/-- A value given from outside, before a program starts. -/
inductive Datum where
  | number (x : Float)
  | text (s : String)
  | bool (b : Bool)
  | array (items : List Datum)
deriving Repr

end PolishPseudocode
