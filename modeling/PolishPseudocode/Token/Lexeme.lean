import PolishPseudocode.Token
import PolishPseudocode.Text.Blank
import PolishPseudocode.Number.Binary64

/-! Lexemes: what can stand next in the rest of a line. Every pattern is tried and the longest match
wins; a fixed word wins over an identifier of the same length. A word or a number must not run into
a letter, digit or underscore. -/

namespace PolishPseudocode

/-- A character that may start a name: an ASCII letter or an underscore. -/
def isNameStart (c : Char) : Bool :=
  c.isAlpha || c == '_'

/-- A character that may continue a name: an ASCII letter or digit or an underscore. -/
def isNameChar (c : Char) : Bool :=
  c.isAlphanum || c == '_'

/-- The number that decimal digits denote. -/
def digitsValue (digits : List Char) : Nat :=
  digits.foldl (fun n c => 10 * n + (c.toNat - '0'.toNat)) 0

/-- The fraction of a numeral: a point with at least one digit behind it. -/
def numeralFraction : List Char → List Char
  | '.' :: rest => rest.takeWhile Char.isDigit
  | _ => []

/-- The double that a numeral with these digits before and behind the point denotes. -/
def numeralValue (whole fraction : List Char) : Float :=
  Number.ofDecimal (digitsValue (whole ++ fraction)) fraction.length

/-- Something recognised in a line: blanks and a comment mean nothing, all else is a token. -/
inductive Lexeme where
  | blank
  | comment
  | token (kind : Token.Kind)
deriving DecidableEq, Repr

namespace Lexeme

/-- The lexemes with one spelling. -/
def fixed : List (List Char × Token.Kind) :=
  [("[", .delimiter .bracket .opening), ("]", .delimiter .bracket .closing),
   ("(", .delimiter .parenthesis .opening), (")", .delimiter .parenthesis .closing),
   (",", .comma), ("...", .ellipsis), (boolText true, .bool true), (boolText false, .bool false),
   (Operator.not.spelling, .operator .not)].map (fun (word, kind) => (word.toList, kind))
  ++ Keyword.all.map (fun word => (word.spelling.toList, .keyword word))
  ++ BinaryOp.all.map (fun op => (op.spelling.toList, .operator (.binary op)))

/-- The longest run of blanks at the start. -/
def blankMatch (rest : List Char) : Nat × Lexeme :=
  ((rest.takeWhile isBlank).length, .blank)

/-- A comment runs from a hash to the end of the line. -/
def commentMatch (rest : List Char) : Nat × Lexeme :=
  (if rest.head? = some '#' then rest.length else 0, .comment)

/-- Digits, and a fraction if there is one. -/
def numeralMatch (rest : List Char) : Nat × Lexeme :=
  let whole := rest.takeWhile Char.isDigit
  let fraction := numeralFraction (rest.drop whole.length)
  let length :=
    if whole.isEmpty then 0
    else if fraction.isEmpty then whole.length
    else whole.length + 1 + fraction.length
  (length, .token (.number (numeralValue whole fraction)))

/-- A name: a starting character and all that continue it. -/
def identifierMatch (rest : List Char) : Nat × Lexeme :=
  let name := if rest.head?.any isNameStart then rest.takeWhile isNameChar else []
  (name.length, .token (.identifier (String.ofList name)))

/-- Every way to read a lexeme at the start of `rest`, with its length; fixed words come first. -/
def candidates (rest : List Char) : List (Nat × Lexeme) :=
  (fixed.filter fun (word, _) => word.isPrefixOf rest).map
    (fun (word, kind) => (word.length, .token kind))
  ++ [blankMatch rest, commentMatch rest, numeralMatch rest, identifierMatch rest].filter (0 < ·.1)

/-- The first of the longest candidates. -/
def longest : List (Nat × Lexeme) → Option (Nat × Lexeme)
  | [] => none
  | c :: others =>
      match longest others with
      | none => some c
      | some best => if c.1 < best.1 then some best else some c

/-- Whether a lexeme must not run into a name character: words, truth values and numbers, but no
symbols. -/
def isWordLike : Lexeme → Bool
  | token (.keyword word) => word != .assign && word != .equals
  | token (.bool _) => true
  | token (.number _) => true
  | token (.operator .not) => true
  | token (.operator (.binary op)) => op == .intDiv || op == .mod || op == .and || op == .or
  | _ => false

/-- Whether a lexeme may be followed by this character. The word that returns from a function stands
before a blank or at the end of its line. -/
def mayPrecede (lexeme : Lexeme) (next : Char) : Bool :=
  !(lexeme.isWordLike && isNameChar next) && (lexeme != token (.keyword .return_) || next == ' ')

structure Found where
  length : Nat
  lexeme : Lexeme
  length_pos : 0 < length

/-- The lexeme at the start of the rest of a line, if there is one. -/
def recognise (rest : List Char) : Option Found :=
  match longest (candidates rest) with
  | none => none
  | some (length, lexeme) =>
      if h : 0 < length ∧ (rest.drop length).head?.all (lexeme.mayPrecede ·) then
        some ⟨length, lexeme, h.1⟩
      else none

end Lexeme

end PolishPseudocode
