import PolishPseudocode.Token.Lexeme
import PolishPseudocode.Value

/-! Starting variables written as `name=value`. A value in double quotes is a text; brackets or a
comma make an array of scalars; a scalar is a truth value, a decimal number, or else a text. Blanks
around a value, an element and a name are dropped. -/

namespace PolishPseudocode

/-- Cuts a text at every occurrence of a character. -/
def splitAtEach (separator : Char) : List Char → List (List Char)
  | [] => [[]]
  | c :: rest =>
      if c = separator then [] :: splitAtEach separator rest
      else
        match splitAtEach separator rest with
        | [] => [[c]]
        | piece :: pieces => (c :: piece) :: pieces

/-- Cuts a text at the first occurrence of a character. -/
def splitAtFirst? (separator : Char) : List Char → Option (List Char × List Char)
  | [] => none
  | c :: rest =>
      if c = separator then some ([], rest)
      else (splitAtFirst? separator rest).map fun (before, after) => (c :: before, after)

/-- What stands between two delimiters at the ends of a text. -/
def between? (opening closing : Char) : List Char → Option (List Char)
  | [] => none
  | c :: rest => if c = opening ∧ rest.getLast? = some closing then some rest.dropLast else none

/-- What stands between double quotes at the ends of a text, if no other one is in it. -/
def unquote? (text : List Char) : Option (List Char) :=
  (between? '"' '"' text).filter fun inner => !inner.contains '"'

/-- Whether a text consists of decimal digits, at least one. -/
def isDigits (text : List Char) : Bool :=
  !text.isEmpty && text.all Char.isDigit

/-- The double that a decimal numeral without a sign denotes. -/
def unsignedDecimal? (text : List Char) : Option Float :=
  match splitAtFirst? '.' text with
  | none => if isDigits text then some (numeralValue text []) else none
  | some (whole, fraction) =>
      if isDigits whole && isDigits fraction then some (numeralValue whole fraction) else none

/-- The double that a decimal numeral denotes, which may start with a minus. -/
def decimal? : List Char → Option Float
  | '-' :: text => (unsignedDecimal? text).map fun x => -x
  | text => unsignedDecimal? text

/-- Whether a text can be the name of a variable. -/
def isName (text : List Char) : Bool :=
  text.head?.any isNameStart && text.all isNameChar

namespace Datum

def scalar (piece : List Char) : Datum :=
  let piece := trim piece
  if piece = (boolText true).toList then bool true
  else if piece = (boolText false).toList then bool false
  else
    match decimal? piece with
    | some x => number x
    | none => text (String.ofList ((unquote? piece).getD piece))

/-- Reads a value: every text is one. -/
def ofText (text : String) : Datum :=
  let chars := trim text.toList
  match unquote? chars with
  | some inner => .text (String.ofList inner)
  | none =>
      match between? '[' ']' chars with
      | some inner =>
          if (trim inner).isEmpty then array [] else array ((splitAtEach ',' inner).map scalar)
      | none =>
          if chars.contains ',' then array ((splitAtEach ',' chars).map scalar) else scalar chars

end Datum

/-- Why a text is no starting variable. -/
inductive BindingError where
  /-- There is no equals sign in the text. -/
  | missingEquals (text : String)
  | invalidName (name : String)
deriving DecidableEq, Repr

def BindingError.message : BindingError → String
  | .missingEquals text =>
      "Niepoprawna definicja zmiennej: " ++ text ++ ". Oczekiwano nazwa=wartość."
  | .invalidName name => "Niepoprawna nazwa zmiennej: " ++ name ++ "."

/-- Reads a starting variable: its name is before the first equals sign, its value behind it. -/
def readBinding (text : String) : Except BindingError (String × Datum) :=
  match splitAtFirst? '=' text.toList with
  | none => .error (.missingEquals text)
  | some (name, value) =>
      let name := trim name
      if isName name then .ok (String.ofList name, Datum.ofText (String.ofList value))
      else .error (.invalidName (String.ofList name))

end PolishPseudocode
