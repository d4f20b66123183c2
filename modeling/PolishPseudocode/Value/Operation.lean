import PolishPseudocode.Fault
import PolishPseudocode.Number.Integral

/-! Operations on values that are already computed: the operators, and the functions every program
can call. -/

namespace PolishPseudocode

/-- Negation takes any value, a minus only a number. -/
def UnaryOp.apply : UnaryOp → Value → Except Fault Value
  | .not, v => .ok (.bool !v.isTruthy)
  | .negate, .number x => .ok (.number (-x))
  | .negate, _ => .error .notNumbers

namespace BinaryOp

/-- The four comparisons by order, on numbers. They are all false for what is no number. -/
def comparesNumbers : BinaryOp → Float → Float → Bool
  | greater, x, y => decide (y < x)
  | less, x, y => decide (x < y)
  | greaterEqual, x, y => decide (y ≤ x)
  | lessEqual, x, y => decide (x ≤ y)
  | _, _, _ => false

/-- The four comparisons by order, on texts: the order of the dictionary, by code points. -/
def comparesTexts : BinaryOp → String → String → Bool
  | greater, s, t => decide (t < s)
  | less, s, t => decide (s < t)
  | greaterEqual, s, t => !decide (s < t)
  | lessEqual, s, t => !decide (t < s)
  | _, _, _ => false

/-- A comparison by order: two numbers or two texts. -/
def applyOrder (op : BinaryOp) : Value → Value → Except Fault Value
  | .number x, .number y => .ok (.bool (op.comparesNumbers x y))
  | .text s, .text t => .ok (.bool (op.comparesTexts s t))
  | _, _ => .error .notOrdered

/-- Equality, or its opposite if `negated`, of two values of one type. -/
def applyEquality (negated : Bool) (left right : Value) : Except Fault Value :=
  if left.class = right.class then .ok (.bool (left.isSame right != negated))
  else .error .differentTypes

def applyLogic (connective : Bool → Bool → Bool) : Value → Value → Except Fault Value
  | .bool a, .bool b => .ok (.bool (connective a b))
  | _, _ => .error .notLogical

/-- Addition of numbers, or one text behind the other. -/
def applyAddition : Value → Value → Except Fault Value
  | .number x, .number y => .ok (.number (x + y))
  | .text s, .text t => .ok (.text (s ++ t))
  | _, _ => .error .notAddable

def applyArithmetic (operation : Float → Float → Float) : Value → Value → Except Fault Value
  | .number x, .number y => .ok (.number (operation x y))
  | _, _ => .error .notNumbers

def apply (op : BinaryOp) (left right : Value) : Except Fault Value :=
  match op with
  | greater | less | greaterEqual | lessEqual => op.applyOrder left right
  | equal => applyEquality false left right
  | notEqual => applyEquality true left right
  | and => applyLogic Bool.and left right
  | or => applyLogic Bool.or left right
  | add => applyAddition left right
  | sub => applyArithmetic (· - ·) left right
  | mul => applyArithmetic (· * ·) left right
  | div => applyArithmetic (· / ·) left right
  | intDiv => applyArithmetic (fun x y => Number.floor (x / y)) left right
  | mod => applyArithmetic Number.remainder left right

/-- Whether the left operand decides the result alone, which is then that operand. -/
def isDecidedBy : BinaryOp → Value → Bool
  | and, .bool false => true
  | or, .bool true => true
  | _, _ => false

end BinaryOp

def Builtin.apply (arrays : Array (Array Value)) : Builtin → List Value → Except Fault Value
  | .ceiling, [.number x] => .ok (.number (Number.ceiling x))
  | .floor, [.number x] => .ok (.number (Number.floor x))
  | .length, [.array id] => .ok (.number (Number.ofLength (arrays.getD id #[]).size))
  | .length, [.text s] => .ok (.number (Number.ofLength s.length))
  | .text, [.number x] => .ok (.text (Number.text x))
  | f, _ => .error (.refused f)

end PolishPseudocode
