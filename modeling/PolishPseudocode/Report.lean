import PolishPseudocode.Run

/-! What a run says to its reader: the text of the output, and for a failure the line it points at
with a caret under the place. -/

namespace PolishPseudocode

/-- A report on a failure. Line and column count from one. -/
inductive Report where
  | diagnostic (lines : List String) (line column : Nat) (message : String)
  | generic (message : String)
deriving DecidableEq, Repr

/-- The report as text: the source line, a caret under the column, and the message; only the message
if there is no such line. -/
def Report.display : Report → String
  | .generic message => message
  | .diagnostic lines line column message =>
      if line = 0 then message
      else
        match lines[line - 1]? with
        | none => message
        | some source => source ++ "\n" ++ "".pushn ' ' (column - 1) ++ "^\n" ++ message

/-- The answer to a request to run a text. -/
structure Response where
  output : String
  report : Option Report
deriving DecidableEq, Repr

/-- The report on a failure of a text. -/
def Failure.report (text : String) (failure : Failure) : Report :=
  match failure.position? with
  | some place =>
      .diagnostic (Source.ofText text).lineTexts (place.line + 1) (place.column + 1) failure.display
  | none => .generic failure.display

def Response.ofResult (text : String) : Except Failure (List Printed) → Response
  | .ok output => ⟨Printed.outputText output, none⟩
  | .error failure => ⟨Printed.outputText failure.output, some (failure.report text)⟩

/-- Runs a text and answers, or `none` if the fuel did not suffice. -/
def respond? (o : Origins) (fuel : Nat) (bindings : List (String × Datum)) (text : String) :
    Option Response :=
  (run? o fuel bindings text).map (Response.ofResult text)

end PolishPseudocode
