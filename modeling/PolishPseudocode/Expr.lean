import PolishPseudocode.Token

/-! Expressions as trees. Every node keeps the place that messages about it point at. -/

namespace PolishPseudocode

/-- A name and the place where it is written. -/
structure Name where
  name : String
  position : Position
deriving DecidableEq, Repr

inductive Literal where
  | number (value : Float)
  | text (content : String)
  | bool (value : Bool)
deriving DecidableEq, Repr

inductive UnaryOp where
  | not
  | negate
deriving DecidableEq, Repr

/-- An expression. The place of an operation is that of its operator, of an index that of `[`, of a
call that of `(`. -/
inductive Expr where
  | literal (value : Literal) (position : Position)
  | var (name : Name)
  | unary (op : UnaryOp) (operand : Expr) (position : Position)
  | binary (left : Expr) (op : BinaryOp) (right : Expr) (position : Position)
  | index (target : Expr) (index : Expr) (position : Position)
  | call (callee : Name) (arguments : List Expr) (position : Position)
deriving Repr

namespace Expr

/-- The place that messages about an expression point at. -/
def position : Expr → Position
  | literal _ p => p
  | var name => name.position
  | unary _ _ p => p
  | binary _ _ _ p => p
  | index _ _ p => p
  | call _ _ p => p

/-- What messages call an expression: the name of the variable or function it starts from, if it has
one. -/
def subject : Expr → String
  | var name => name.name
  | call callee _ _ => callee.name
  | index target _ _ => target.subject
  | _ => "wyrażenie"

end Expr

end PolishPseudocode
