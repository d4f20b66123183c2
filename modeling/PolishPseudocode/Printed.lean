import PolishPseudocode.Number.Written
import PolishPseudocode.Value

/-! What printing records: a copy of the value that later writes do not change. An array that
contains itself is cut off where it would start again. -/

namespace PolishPseudocode

inductive Printed where
  | number (x : Float)
  | text (s : String)
  | bool (b : Bool)
  | array (items : List Printed)
  | function
deriving Repr

namespace Printed

mutual

def display : Printed → String
  | number x => Number.text x
  | text s => s
  | bool b => boolText b
  | array items => "[" ++ String.intercalate ", " (displays items) ++ "]"
  | function => "<funkcja>"

def displays : List Printed → List String
  | [] => []
  | item :: items => display item :: displays items

end

/-- The text of a whole output, an item a line. -/
def outputText (items : List Printed) : String :=
  String.intercalate "\n" (displays items)

/-- Copies a value. `path` are the arrays that the value lies in; one of them is not entered again.
Each step down adds an array to the path, so as many steps as there are arrays, and one, are enough.
-/
def copy (arrays : Array (Array Value)) : Nat → List Nat → Value → Printed
  | _, _, .number x => number x
  | _, _, .text s => text s
  | _, _, .bool b => bool b
  | _, _, .builtin _ => function
  | _, _, .function _ => function
  | 0, _, .array _ => text ""
  | steps + 1, path, .array id =>
      if id ∈ path then text ""
      else array ((arrays.getD id #[]).toList.map fun item => copy arrays steps (id :: path) item)

/-- What printing a value records; a truth value on its own is recorded as its text. -/
def ofValue (arrays : Array (Array Value)) : Value → Printed
  | .bool b => text (boolText b)
  | value => copy arrays (arrays.size + 1) [] value

end Printed

end PolishPseudocode
