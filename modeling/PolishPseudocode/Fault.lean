import PolishPseudocode.Printed

/-! Why a running program stops: the causes and their Polish wording. -/

namespace PolishPseudocode

/-- What a message calls the thing that was indexed. -/
inductive Indexed where
  /-- An element that is read. -/
  | reading
  /-- An element that is written. -/
  | writing
  /-- A character written behind the end of a text. -/
  | writingText
deriving DecidableEq, Repr

/-- The wording, in the genitive. -/
def Indexed.text : Indexed → String
  | .reading => "tablicy"
  | .writing => "tablicy/napisu"
  | .writingText => "napisu"

/-- The reasons for which a program stops. -/
inductive Fault where
  | unknownVariable (name : String)
  | notAFunction (name : String)
  | wrongArity (name : String) (takes gets : Nat)
  /-- A call that is used for its value gave none. -/
  | nothingReturned (name : String)
  | stackOverflow
  /-- A function of the language refuses its arguments. -/
  | refused (f : Builtin)
  | branchNotBool
  | loopNotBool
  | notNumbers
  | notAddable
  | notOrdered
  | differentTypes
  | notLogical
  | notIndexable (subject : String)
  | outOfRange (index : String) (what : Indexed) (subject : String)
  | notACharacter
deriving DecidableEq, Repr

def Fault.message : Fault → String
  | .unknownVariable name => "Nieznana zmienna: " ++ name ++ "."
  | .notAFunction name => "Zmienna " ++ name ++ " nie jest funkcją."
  | .wrongArity name takes gets =>
      "Funkcja " ++ name ++ " przyjmuje liczbę argumentów: " ++ toString takes
        ++ ", otrzymała liczbę argumentów: " ++ toString gets ++ "."
  | .nothingReturned name => "Funkcja " ++ name ++ " nic nie zwraca."
  | .stackOverflow => "Przepełnienie stosu!"
  | .refused .length => "Argumentem funkcji dl musi być tablica lub napis."
  | .refused f => "Argumentem funkcji " ++ f.name ++ " musi być liczba."
  | .branchNotBool => "Wyrażenie bloku JEŻELI musi ewaluować do wartości PRAWDA/FAŁSZ."
  | .loopNotBool => "Wyrażenie pętli DOPÓKI musi ewaluować do wartości PRAWDA/FAŁSZ."
  | .notNumbers => "Operacje arytmetyczne można wykonywać tylko na liczbach."
  | .notAddable => "Operację dodawania można wykonać tylko albo na liczbach, albo na napisach."
  | .notOrdered => "Porównywać można tylko albo liczby, albo napisy."
  | .differentTypes => "Porównywać można tylko wartości tego samego typu."
  | .notLogical => "Spójników logicznych można używać jedynie na wartościach PRAWDA/FAŁSZ."
  | .notIndexable subject => "Zmienna " ++ subject ++ " nie jest tablicą ani napisem."
  | .outOfRange index what subject =>
      "Indeks " ++ index ++ " poza długością " ++ what.text ++ " " ++ subject ++ "."
  | .notACharacter => "W napisie można zamienić jedynie pojedynczy znak na inny znak."

structure RuntimeError where
  fault : Fault
  position : Position
deriving DecidableEq, Repr

/-- The wording of the error, without its place. -/
def RuntimeError.message (e : RuntimeError) : String :=
  e.fault.message

end PolishPseudocode
