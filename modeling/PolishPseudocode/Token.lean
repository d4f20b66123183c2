import PolishPseudocode.Position

/-! Tokens of the language: their kinds with what they carry, their classes without it, and the
spelling of every word and symbol. Messages name a class by its Polish description. -/

namespace PolishPseudocode

inductive Side where
  | opening
  | closing
deriving DecidableEq, Repr

/-- The two pairs of delimiters, `( )` and `[ ]`. -/
inductive Delimiter where
  | parenthesis
  | bracket
deriving DecidableEq, Repr

/-- Words with a fixed role in a statement, the assignment arrow and the equals sign of a counting
loop. -/
inductive Keyword where
  | assign
  | equals
  | for_
  | while_
  | if_
  | then_
  | else_
  | do_
  | print
  | function
  | return_
deriving DecidableEq, Repr

/-- Operators between two operands, from the tightest tier to the loosest. -/
inductive BinaryOp where
  | mul
  | div
  | intDiv
  | mod
  | add
  | sub
  | greater
  | less
  | greaterEqual
  | lessEqual
  | equal
  | notEqual
  | and
  | or
deriving DecidableEq, Repr

/-- Operator tokens. A minus is always the binary one here; what stands before it decides its role
later. -/
inductive Operator where
  | binary (op : BinaryOp)
  | not
deriving DecidableEq, Repr

def Delimiter.symbol : Delimiter → Side → String
  | .parenthesis, .opening => "("
  | .parenthesis, .closing => ")"
  | .bracket, .opening => "["
  | .bracket, .closing => "]"

namespace Keyword

/-- The keyword as a program writes it. -/
def spelling : Keyword → String
  | assign => "<-"
  | equals => "="
  | for_ => "dla"
  | while_ => "dopóki"
  | if_ => "jeżeli"
  | then_ => "to"
  | else_ => "w przeciwnym razie"
  | do_ => "wykonuj"
  | print => "wypisz"
  | function => "funkcja"
  | return_ => "zwróć"

def all : List Keyword :=
  [assign, equals, for_, while_, if_, then_, else_, do_, print, function, return_]

end Keyword

namespace BinaryOp

def spelling : BinaryOp → String
  | mul => "*"
  | div => "/"
  | intDiv => "div"
  | mod => "mod"
  | add => "+"
  | sub => "-"
  | greater => ">"
  | less => "<"
  | greaterEqual => ">="
  | lessEqual => "<="
  | equal => "=="
  | notEqual => "!="
  | and => "oraz"
  | or => "lub"

def all : List BinaryOp :=
  [mul, div, intDiv, mod, add, sub, greater, less, greaterEqual, lessEqual, equal, notEqual,
   and, or]

end BinaryOp

def Operator.spelling : Operator → String
  | .binary op => op.spelling
  | .not => "nie"

def boolText : Bool → String
  | true => "PRAWDA"
  | false => "FAŁSZ"

/-- What a token is, with what it carries. -/
inductive Token.Kind where
  | indentation
  | identifier (name : String)
  | delimiter (pair : Delimiter) (side : Side)
  | comma
  | keyword (word : Keyword)
  | number (value : Float)
  | text (content : String)
  | bool (value : Bool)
  | operator (op : Operator)
  | ellipsis
  | newLine
deriving DecidableEq, Repr

/-- What a token is, without what it carries. -/
inductive Token.Class where
  | indentation
  | identifier
  | delimiter (pair : Delimiter)
  | comma
  | keyword
  | number
  | text
  | bool
  | operator
  | ellipsis
  | newLine
deriving DecidableEq, Repr

structure Token where
  kind : Token.Kind
  position : Position
deriving DecidableEq, Repr

def Token.Kind.class : Token.Kind → Token.Class
  | .indentation => .indentation
  | .identifier _ => .identifier
  | .delimiter pair _ => .delimiter pair
  | .comma => .comma
  | .keyword _ => .keyword
  | .number _ => .number
  | .text _ => .text
  | .bool _ => .bool
  | .operator _ => .operator
  | .ellipsis => .ellipsis
  | .newLine => .newLine

/-- The Polish name of a class, as messages use it. -/
def Token.Class.description : Token.Class → String
  | .indentation => "wcięcie"
  | .identifier => "zmienna"
  | .delimiter .parenthesis => "nawias okrągły"
  | .delimiter .bracket => "nawias kwadratowy"
  | .comma => "przecinek"
  | .keyword => "słowo kluczowe"
  | .number => "liczba"
  | .text => "napis"
  | .bool => "boolean"
  | .operator => "operator"
  | .ellipsis => "trzy kropki"
  | .newLine => "nowa linia"

end PolishPseudocode
