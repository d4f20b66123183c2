import PolishPseudocode.Expr
import PolishPseudocode.SyntaxError

/-! From a flat expression to a tree. Parentheses are matched first, innermost level first; on each
level the operators are applied tier by tier: indexing, minus before an operand, `* / div mod`, `+
-`, comparisons, `nie`, `oraz`, `lub`. Binary tiers work from left to right, the two prefix tiers
from right to left, so that prefix operators can be stacked. -/

namespace PolishPseudocode

/-- An element of a flat expression. -/
inductive Item where
  | operand (e : Expr)
  | operator (op : Operator) (position : Position)
  | opening (position : Position)
  | closing (position : Position)
  | index (index : Expr) (position : Position)
deriving Repr

/-- An element of one level of parentheses. -/
inductive Node where
  | operand (e : Expr)
  | operator (op : Operator) (position : Position)
  | index (index : Expr) (position : Position)
deriving Repr

/-- An element of one level after indexing. -/
inductive Term where
  | operand (e : Expr)
  | operator (op : Operator) (position : Position)
deriving Repr

def Term.position : Term → Position
  | .operand e => e.position
  | .operator _ p => p

def Term.isOperator : Term → Bool
  | .operator _ _ => true
  | .operand _ => false

namespace Reduction

/-- Hangs every index on the operand before it. The terms done so far are in reverse order. -/
def attachIndices : List Term → List Node → Except SyntaxError (List Term)
  | done, [] => .ok done.reverse
  | done, .operand e :: rest => attachIndices (.operand e :: done) rest
  | done, .operator op p :: rest => attachIndices (.operator op p :: done) rest
  | .operand target :: done, .index i p :: rest =>
      attachIndices (.operand (.index target i p) :: done) rest
  | _, .index _ p :: _ => .error ⟨.missingOperand none, p⟩

/-- Applies a prefix operator to the operand behind it wherever `applies` allows it for the term
before, from right to left. -/
def applyPrefix (op : Operator) (applies : Option Term → Bool) (build : Expr → Position → Expr) :
    Option Term → List Term → Except SyntaxError (List Term)
  | _, [] => .ok []
  | before, term :: rest =>
      match applyPrefix op applies build (some term) rest with
      | .error e => .error e
      | .ok rest =>
          match term with
          | .operand _ => .ok (term :: rest)
          | .operator found p =>
              if found = op ∧ applies before then
                match rest with
                | .operand e :: rest => .ok (.operand (build e p) :: rest)
                | _ => .error ⟨.missingOperand (some op), p⟩
              else .ok (term :: rest)

/-- Joins the operands of the operators of one tier from left to right. The terms done so far are in
reverse order. -/
def joinTier (tier : BinaryOp → Bool) : List Term → List Term → Except SyntaxError (List Term)
  | done, [] => .ok done.reverse
  | done, .operand e :: rest => joinTier tier (.operand e :: done) rest
  | done, .operator .not p :: rest => joinTier tier (.operator .not p :: done) rest
  | done, .operator (.binary op) p :: rest =>
      if tier op then
        match done, rest with
        | .operand left :: done, .operand right :: rest =>
            joinTier tier (.operand (.binary left op right p) :: done) rest
        | _, _ => .error ⟨.missingOperand (some (.binary op)), p⟩
      else joinTier tier (.operator (.binary op) p :: done) rest

/-- A minus belongs to the operand behind it if nothing before it could be its left operand. -/
def isLeading : Option Term → Bool
  | none => true
  | some before => before.isOperator

/-- A numeral takes the sign, and the place of the minus; anything else is negated when it is
evaluated. -/
def negate : Expr → Position → Expr
  | .literal (.number x) _, p => .literal (.number (-x)) p
  | e, p => .unary .negate e p

/-- The tier of `* / div mod`. -/
def isMultiplicative : BinaryOp → Bool
  | .mul | .div | .intDiv | .mod => true
  | _ => false

/-- The tier of `+ -`. -/
def isAdditive : BinaryOp → Bool
  | .add | .sub => true
  | _ => false

/-- The tier of the comparisons, by order and by equality alike. -/
def isComparison : BinaryOp → Bool
  | .greater | .less | .greaterEqual | .lessEqual | .equal | .notEqual => true
  | _ => false

/-- The first variable that stands where an operator should: an odd number of terms is before it. -/
def misplacedVariable? : List Term → Option Name
  | _ :: .operand (.var name) :: _ => some name
  | _ :: _ :: rest => misplacedVariable? rest
  | _ => none

/-- The operand that is left, if it is the only term. -/
def single : List Term → Except SyntaxError Expr
  | [.operand e] => .ok e
  | [.operator _ p] => .error ⟨.strayExpression, p⟩
  | [] => .error ⟨.strayExpression, ⟨0, 0⟩⟩
  | first :: second :: rest =>
      match misplacedVariable? (first :: second :: rest) with
      | some name => .error ⟨.strayVariable name.name, name.position⟩
      | none => .error ⟨.strayExpression, second.position⟩

/-- Reduces one level without parentheses to its tree; `place` is where an empty level is reported.
-/
def level (nodes : List Node) (place : Position) : Except SyntaxError Expr :=
  if nodes.isEmpty then .error ⟨.missingExpression .parenthesis, place⟩
  else do
    let terms ← attachIndices [] nodes
    let terms ← applyPrefix (.binary .sub) isLeading negate none terms
    let terms ← joinTier isMultiplicative [] terms
    let terms ← joinTier isAdditive [] terms
    let terms ← joinTier isComparison [] terms
    let terms ← applyPrefix .not (fun _ => true) (.unary .not) none terms
    let terms ← joinTier (· == .and) [] terms
    let terms ← joinTier (· == .or) [] terms
    single terms

/-- Reduces a flat expression. An opening parenthesis suspends the level that is being collected, a
closing one reduces the finished level to an operand of the suspended one. Levels are collected in
reverse order. -/
def levels (place : Position) (suspended : List (Position × List Node)) (current : List Node) :
    List Item → Except SyntaxError Expr
  | [] =>
      match suspended with
      | [] => level current.reverse place
      | (opening, _) :: _ => .error ⟨.unclosedParenthesis none, opening⟩
  | .operand e :: rest => levels place suspended (.operand e :: current) rest
  | .operator op p :: rest => levels place suspended (.operator op p :: current) rest
  | .index i p :: rest => levels place suspended (.index i p :: current) rest
  | .opening p :: rest => levels place ((p, current) :: suspended) [] rest
  | .closing p :: rest =>
      match suspended with
      | [] => .error ⟨.strayToken (.delimiter .parenthesis), p⟩
      | (opening, outer) :: suspended =>
          match level current.reverse opening with
          | .error e => .error e
          | .ok e => levels place suspended (.operand e :: outer) rest

end Reduction

/-- The tree of a flat expression that starts at `place`. -/
def Expr.ofItems (items : List Item) (place : Position) : Except SyntaxError Expr :=
  Reduction.levels place [] [] items

end PolishPseudocode
