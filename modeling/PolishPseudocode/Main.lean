import PolishPseudocode.CommandLine

/-! The command line tool. -/

namespace PolishPseudocode.CommandLine

/-- Runs an invocation with ever more fuel until it ends or the clock, in milliseconds, has passed
`deadline`. -/
partial def Invocation.exitBefore (i : Invocation) (deadline : Nat) (text : Option String)
    (fuel : Nat) : IO Exit := do
  match i.exit? fuel text with
  | some exit => if (← IO.monoMsNow) ≤ deadline then return exit else return .timeout
  | none =>
      if (← IO.monoMsNow) ≤ deadline then i.exitBefore deadline text (2 * fuel)
      else return .timeout

/-- Writes what a run leaves behind and gives its exit code. -/
def Exit.write (exit : Exit) : IO UInt32 := do
  IO.print exit.output
  IO.eprint exit.errors
  return UInt32.ofNat exit.code

def readText? (path : String) : IO (Option String) := do
  try return some (← IO.FS.readFile path)
  catch _ => return none

end PolishPseudocode.CommandLine

open PolishPseudocode.CommandLine

/-- Reads the arguments and the program file, runs the program and writes what it leaves behind. -/
def main (arguments : List String) : IO UInt32 := do
  match Invocation.ofArguments arguments with
  | .error stop => stop.exit.write
  | .ok i =>
      let text ← if i.file then readText? i.contents else pure (some i.contents)
      let exit ← i.exitBefore ((← IO.monoMsNow) + i.timeout) text (Nat.pow 2 20)
      exit.write
