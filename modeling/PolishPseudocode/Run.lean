import PolishPseudocode.Evaluation
import PolishPseudocode.Program.Reader

/-! Running a program text: it is read, and if that succeeds it is executed from the given
variables. -/

namespace PolishPseudocode

/-- Why a run gives no result. -/
inductive Failure where
  /-- The text is not a program. -/
  | rejected (error : SyntaxError)
  /-- The program stopped; `output` is what it printed before. -/
  | stopped (error : RuntimeError) (output : List Printed)
  /-- Something else went wrong; `detail` is not shown. -/
  | internal (detail : String)

namespace Failure

/-- The message for failures that no program causes. -/
def internalMessage : String :=
  "Ups, wystąpił nieoczekiwany błąd wewnętrzny."

def message : Failure → String
  | rejected e => e.message
  | stopped e _ => e.message
  | internal _ => internalMessage

def position? : Failure → Option Position
  | rejected e => some e.position
  | stopped e _ => some e.position
  | internal _ => none

/-- The message with the line and the column, counted from one, in front of it. -/
def display (f : Failure) : String :=
  match f.position? with
  | some p =>
      "Wiersz " ++ toString (p.line + 1) ++ ", kolumna " ++ toString (p.column + 1) ++ ": "
        ++ f.message
  | none => f.message

/-- Whether no program is to blame. -/
def isInternal : Failure → Bool
  | internal _ => true
  | _ => false

def output : Failure → List Printed
  | stopped _ output => output
  | _ => []

end Failure

/-- The result of an outcome of a whole program, or `none` if the fuel did not suffice. -/
def Outcome.result? : Outcome Unit → Option (Except Failure (List Printed))
  | .done _ m => some (.ok m.output.toList)
  | .failed error m => some (.error (.stopped error m.output.toList))
  | .outOfFuel => none

def Program.run? (o : Origins) (fuel : Nat) (bindings : List (String × Datum)) (p : Program) :
    Option (Except Failure (List Printed)) :=
  (execProgram o fuel p (.initial bindings)).result?

/-- Reads a text and runs it. The result is what was printed, or the failure, or `none` if the fuel
did not suffice. -/
def run? (o : Origins) (fuel : Nat) (bindings : List (String × Datum)) (text : String) :
    Option (Except Failure (List Printed)) :=
  match Program.ofText text with
  | .error e => some (.error (.rejected e))
  | .ok p => p.run? o fuel bindings

end PolishPseudocode
