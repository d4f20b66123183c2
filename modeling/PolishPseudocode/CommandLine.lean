import PolishPseudocode.CommandLine.Arguments
import PolishPseudocode.Report

/-! What the command line tool writes and the code it exits with, as a function of its arguments and
of the file they name. -/

namespace PolishPseudocode.CommandLine

structure Exit where
  code : Nat
  output : String
  errors : String
deriving DecidableEq, Repr

def versionText : String :=
  "pseudokod 0.1.0"

def usageText : String :=
  "Usage: pseudokod [-f] [-v NAME=VALUE]... [--array-origin N] [--string-origin N] "
    ++ "[--zero-based] [-t N] CONTENTS"

/-- The message for a program file that cannot be read. -/
def unreadableText (path : String) : String :=
  "Nie udało się odczytać pliku '" ++ path ++ "'. Czy na pewno istnieje?"

/-- The exit for an answer. Output and report each end their last line; an empty output is not
written at all. -/
def Exit.ofResponse (r : Response) : Exit :=
  let output := if r.output.isEmpty then "" else r.output ++ "\n"
  match r.report with
  | none => ⟨0, output, ""⟩
  | some report => ⟨1, output, report.display ++ "\n"⟩

def Exit.timeout : Exit :=
  ⟨1, "", "Program wykonywał się zbyt długo.\n"⟩

def Stop.exit : Stop → Exit
  | .usage => ⟨2, "", usageText ++ "\n"⟩
  | .help => ⟨0, usageText ++ "\n", ""⟩
  | .version => ⟨0, versionText ++ "\n", ""⟩

/-- The exit of an invocation for the text of its program, which is `none` if its file cannot be
read; or `none` if the fuel did not suffice. The file is read first, then the variables from left to
right, then the program is run. -/
def Invocation.exit? (i : Invocation) (fuel : Nat) (text : Option String) : Option Exit :=
  match text with
  | none => some ⟨2, "", unreadableText i.contents ++ "\n"⟩
  | some text =>
      match i.vars.mapM readBinding with
      | .error e => some ⟨1, "", e.message ++ "\n"⟩
      | .ok bindings => (respond? i.origins fuel bindings text).map Exit.ofResponse

end PolishPseudocode.CommandLine
