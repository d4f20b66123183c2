import PolishPseudocode.Token

/-! Why a text is not a program: the causes, each with the place it is reported at, and their Polish
wording. -/

namespace PolishPseudocode

/-- What the reader was waiting for. -/
inductive Expected where
  | token (kind : Token.Class)
  | delimiter (pair : Delimiter) (side : Side)
  | keyword (word : Keyword)
  | expression
deriving DecidableEq, Repr

def Expected.text : Expected → String
  | .token kind => kind.description
  | .delimiter pair side => pair.symbol side
  | .keyword word => word.spelling
  | .expression => "wyrażenie"

/-- The reasons for which a text is refused. -/
inductive SyntaxError.Cause where
  /-- A text literal is open at the end of its line, which may be the last one. -/
  | unterminatedText (lastLine : Bool)
  /-- No token starts here; `rest` is what the line still holds. -/
  | unknownToken (rest : String)
  | endOfInput (expected : Expected)
  | unexpectedToken (found : Token.Class) (expected : Expected)
  /-- The other side of the right pair of delimiters. -/
  | wrongSide (pair : Delimiter) (found expected : Side)
  | wrongKeyword (found expected : Keyword)
  /-- A token that can stand nowhere here. -/
  | strayToken (found : Token.Class)
  | strayKeyword (found : Keyword)
  | strayIndentation
  /-- A variable at the start of a statement that is not assigned to. -/
  | missingArrow
  | returnOutsideFunction
  | missingBlock
  /-- A closing delimiter where an expression has to stand. -/
  | missingExpression (found : Delimiter)
  /-- An open parenthesis at the end of an expression, before a token or the end of the input. -/
  | unclosedParenthesis (found : Option Token.Class)
  /-- An operator without one of its operands; `none` stands for the index brackets. -/
  | missingOperand (op : Option Operator)
  | strayVariable (name : String)
  | strayExpression
deriving DecidableEq, Repr

def SyntaxError.Cause.message : SyntaxError.Cause → String
  | .unterminatedText true => "Nieoczekiwany koniec wejścia. Oczekiwano zamknięcia napisu."
  | .unterminatedText false => "Nieoczekiwany koniec linii. Oczekiwano zamknięcia napisu."
  | .unknownToken rest =>
      "Nieoczekiwany token: " ++ rest ++ ". Nie używaj polskich znaków w nazwach zmiennych."
  | .endOfInput expected => "Nieoczekiwany koniec wejścia, oczekiwano: " ++ expected.text ++ "."
  | .unexpectedToken found expected =>
      "Nieoczekiwany token: " ++ found.description ++ ", oczekiwano: " ++ expected.text ++ "."
  | .wrongSide pair found expected =>
      "Nieoczekiwany token: " ++ pair.symbol found ++ ", oczekiwano: "
        ++ pair.symbol expected ++ "."
  | .wrongKeyword found expected =>
      "Nieoczekiwane słowo kluczowe: " ++ found.spelling ++ ", oczekiwano: "
        ++ expected.spelling ++ "."
  | .strayToken found => "Nieoczekiwany token: " ++ found.description ++ "."
  | .strayKeyword found => "Nieoczekiwane słowo kluczowe: " ++ found.spelling ++ "."
  | .strayIndentation => "Nieoczekiwane wcięcie."
  | .missingArrow => "Po zmiennej musi wystąpić operator przypisania <-."
  | .returnOutsideFunction => "Słowo kluczowe ZWRÓĆ poza funkcją."
  | .missingBlock => "Oczekiwano bloku kodu."
  | .missingExpression .bracket => "Oczekiwano wyrażenia, znaleziono: ]."
  | .missingExpression .parenthesis => "Oczekiwano wyrażenia, znaleziono: nawias okrągły."
  | .unclosedParenthesis found =>
      "Oczekiwano zamknięcia nawiasu okrągłego, znaleziono: "
        ++ (found.map Token.Class.description).getD "koniec wejścia" ++ "."
  | .missingOperand op =>
      "Brak operandu dla operatora " ++ (op.map Operator.spelling).getD "[]" ++ "."
  | .strayVariable name => "Nieoczekiwana zmienna: " ++ name ++ "."
  | .strayExpression => "Nieoczekiwane wyrażenie."

/-- A cause and the place it is reported at. -/
structure SyntaxError where
  cause : SyntaxError.Cause
  position : Position
deriving DecidableEq, Repr

/-- The wording of the error, without its place. -/
def SyntaxError.message (e : SyntaxError) : String :=
  e.cause.message

end PolishPseudocode
