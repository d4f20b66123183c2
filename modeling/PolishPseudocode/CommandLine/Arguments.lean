import PolishPseudocode.Binding
import PolishPseudocode.Machine.Element

/-! The arguments of the command line. A switch is long (`--name`, `--name value`, `--name=value`)
or short (`-n`, `-n value`, `-nvalue`, `-n=value`); short ones without a value may be written
together, and behind `--` nothing is a switch. What is no switch is the program, which must be there
once. -/

namespace PolishPseudocode.CommandLine

inductive Switch where
  /-- The program is in a file. -/
  | file
  /-- A starting variable. -/
  | var
  | arrayOrigin
  | textOrigin
  /-- Both origins are zero. -/
  | zeroBased
  /-- A time budget in milliseconds. -/
  | timeout
  | help
  | version
deriving DecidableEq, Repr

namespace Switch

def all : List Switch :=
  [file, var, arrayOrigin, textOrigin, zeroBased, timeout, help, version]

def longName : Switch → String
  | file => "file"
  | var => "var"
  | arrayOrigin => "array-origin"
  | textOrigin => "string-origin"
  | zeroBased => "zero-based"
  | timeout => "timeout-ms"
  | help => "help"
  | version => "version"

/-- The character behind one dash, if the switch has one. -/
def shortName? : Switch → Option Char
  | file => some 'f'
  | var => some 'v'
  | timeout => some 't'
  | help => some 'h'
  | version => some 'V'
  | _ => none

def takesValue : Switch → Bool
  | var | arrayOrigin | textOrigin | timeout => true
  | _ => false

/-- Whether the value may be a negative number of its own argument. -/
def allowsNegative : Switch → Bool
  | arrayOrigin | textOrigin => true
  | _ => false

def ofLong? (name : List Char) : Option Switch :=
  all.find? fun switch => switch.longName.toList == name

def ofShort? (c : Char) : Option Switch :=
  all.find? fun switch => switch.shortName? == some c

/-- Whether an argument can be the value of the switch before it: it is no switch itself, or a
negative number. -/
def accepts (switch : Switch) : List Char → Bool
  | '-' :: c :: rest => switch.allowsNegative && isDigits (c :: rest)
  | _ => true

end Switch

inductive Stop where
  /-- They cannot be understood. -/
  | usage
  | help
  | version
deriving DecidableEq, Repr

/-- What the arguments read so far say. -/
structure Settings where
  file : Bool := false
  vars : List String := []
  arrayOrigin : Option Int := none
  textOrigin : Option Int := none
  zeroBased : Bool := false
  timeout : Option Nat := none
  contents : Option String := none
deriving DecidableEq, Repr

/-- The integer that digits with or without a sign denote. -/
def integer? : List Char → Option Int
  | '-' :: digits => if isDigits digits then some (-(digitsValue digits : Int)) else none
  | '+' :: digits => if isDigits digits then some (digitsValue digits : Int) else none
  | digits => if isDigits digits then some (digitsValue digits : Int) else none

/-- An integer of sixty-four bits with a sign. -/
def int64? (text : List Char) : Option Int :=
  (integer? text).filter fun n => -Int.pow 2 63 ≤ n && n < Int.pow 2 63

/-- An integer of sixty-four bits without a sign; a plus is allowed, a minus is not. -/
def uint64? : List Char → Option Nat
  | '-' :: _ => none
  | text => ((integer? text).map Int.toNat).filter (· < Nat.pow 2 64)

namespace Settings

/-- Reads a switch without a value. -/
def switchOn (s : Settings) : Switch → Except Stop Settings
  | .file => if s.file then .error .usage else .ok { s with file := true }
  | .zeroBased => if s.zeroBased then .error .usage else .ok { s with zeroBased := true }
  | .help => .error .help
  | .version => .error .version
  | _ => .error .usage

/-- Reads the value of a switch; only variables may be given more than once. -/
def switchTo (s : Settings) (switch : Switch) (value : List Char) : Except Stop Settings :=
  match switch with
  | .var => .ok { s with vars := s.vars ++ [String.ofList value] }
  | .arrayOrigin =>
      match s.arrayOrigin, int64? value with
      | none, some n => .ok { s with arrayOrigin := some n }
      | _, _ => .error .usage
  | .textOrigin =>
      match s.textOrigin, int64? value with
      | none, some n => .ok { s with textOrigin := some n }
      | _, _ => .error .usage
  | .timeout =>
      match s.timeout, uint64? value with
      | none, some n => .ok { s with timeout := some n }
      | _, _ => .error .usage
  | _ => .error .usage

def program (s : Settings) (text : String) : Except Stop Settings :=
  match s.contents with
  | none => .ok { s with contents := some text }
  | some _ => .error .usage

/-- Reads a long switch, which may still wait for its value. -/
def long (s : Settings) (text : List Char) : Except Stop (Settings × Option Switch) :=
  match splitAtFirst? '=' text with
  | some (name, value) =>
      match Switch.ofLong? name with
      | some switch =>
          if switch.takesValue then do return (← s.switchTo switch value, none) else .error .usage
      | none => .error .usage
  | none =>
      match Switch.ofLong? text with
      | some switch =>
          if switch.takesValue then .ok (s, some switch) else do return (← s.switchOn switch, none)
      | none => .error .usage

/-- Reads short switches written together; the last one may still wait for its value. -/
def short (s : Settings) : List Char → Except Stop (Settings × Option Switch)
  | [] => .ok (s, none)
  | c :: rest =>
      match Switch.ofShort? c with
      | none => .error .usage
      | some switch =>
          if switch.takesValue then
            match rest with
            | [] => .ok (s, some switch)
            | '=' :: value => do return (← s.switchTo switch value, none)
            | value => do return (← s.switchTo switch value, none)
          else
            match s.switchOn switch with
            | .ok s => s.short rest
            | .error stop => .error stop

/-- Reads arguments from left to right; `waiting` is the switch whose value comes next. -/
def read : Settings → Option Switch → List String → Except Stop Settings
  | s, none, [] => .ok s
  | _, some _, [] => .error .usage
  | s, some switch, argument :: rest =>
      if switch.accepts argument.toList then
        match s.switchTo switch argument.toList with
        | .ok s => s.read none rest
        | .error stop => .error stop
      else .error .usage
  | s, none, argument :: rest =>
      match argument.toList with
      | ['-', '-'] => rest.foldlM program s
      | '-' :: '-' :: text =>
          match s.long text with
          | .ok (s, waiting) => s.read waiting rest
          | .error stop => .error stop
      | '-' :: c :: text =>
          match s.short (c :: text) with
          | .ok (s, waiting) => s.read waiting rest
          | .error stop => .error stop
      | _ =>
          match s.program argument with
          | .ok s => s.read none rest
          | .error stop => .error stop

end Settings

/-- What to run. `contents` is the program, or the path of its file. -/
structure Invocation where
  file : Bool
  contents : String
  vars : List String
  origins : Origins
  timeout : Nat
deriving DecidableEq, Repr

/-- The time budget unless told otherwise, in milliseconds. -/
def defaultTimeout : Nat :=
  5000

/-- What the settings say as a whole: there must be a program, and no origin beside the switch that
sets both. -/
def Settings.invocation (s : Settings) : Except Stop Invocation :=
  match s.contents with
  | none => .error .usage
  | some contents =>
      if s.zeroBased then
        if s.arrayOrigin.isSome || s.textOrigin.isSome then .error .usage
        else .ok ⟨s.file, contents, s.vars, .zero, s.timeout.getD defaultTimeout⟩
      else
        .ok ⟨s.file, contents, s.vars,
          ⟨s.arrayOrigin.getD Origins.one.arrays, s.textOrigin.getD Origins.one.texts⟩,
          s.timeout.getD defaultTimeout⟩

def Invocation.ofArguments (arguments : List String) : Except Stop Invocation := do
  (← Settings.read {} none arguments).invocation

end PolishPseudocode.CommandLine
