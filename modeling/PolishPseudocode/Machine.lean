import PolishPseudocode.Printed

/-! The state of a run: a stack of frames with the variables, the arrays, and what was printed. A
variable is looked up from the innermost frame outwards, so a function sees, and may overwrite, the
variables of all its callers. -/

namespace PolishPseudocode

/-- The variables of one call, each once. -/
abbrev Frame :=
  List (String × Value)

namespace Frame

def get? (frame : Frame) (name : String) : Option Value :=
  frame.lookup name

def has (frame : Frame) (name : String) : Bool :=
  frame.any (·.1 == name)

/-- Sets a variable, which may be new. -/
def set : Frame → String → Value → Frame
  | [], name, value => [(name, value)]
  | (other, old) :: rest, name, value =>
      if other = name then (name, value) :: rest else (other, old) :: set rest name value

/-- The frame of a call; of two parameters of one name the later one counts. -/
def ofArguments (parameters : List String) (arguments : List Value) : Frame :=
  (parameters.zip arguments).foldl (fun frame (name, value) => frame.set name value) []

end Frame

/-- The state of a run. `top` is the frame of the innermost call and `callers` are the frames below
it. Arrays are referred to by their index in `arrays`; `functions` is the number of definitions
carried out. -/
structure Machine where
  top : Frame
  callers : List Frame
  arrays : Array (Array Value)
  functions : Nat
  output : Array Printed

namespace Machine

/-- The most frames a run may have. -/
def maxDepth : Nat :=
  999

/-- All frames, from the innermost outwards. -/
def frames (m : Machine) : List Frame :=
  m.top :: m.callers

def depth (m : Machine) : Nat :=
  m.callers.length + 1

/-- The value of a variable, from the innermost frame that has it. -/
def lookup (m : Machine) (name : String) : Option Value :=
  m.frames.findSome? (·.get? name)

/-- Sets a variable of the innermost frame. -/
def define (m : Machine) (name : String) (value : Value) : Machine :=
  { m with top := m.top.set name value }

/-- Sets a variable in the first frame that has it; there must be one. -/
def assignIn (name : String) (value : Value) : List Frame → List Frame
  | [] => []
  | frame :: rest =>
      if frame.has name then frame.set name value :: rest else frame :: assignIn name value rest

/-- Sets a variable where it is looked up, or in the innermost frame if it is new. -/
def assign (m : Machine) (name : String) (value : Value) : Machine :=
  if m.top.has name then m.define name value
  else if m.callers.any (·.has name) then { m with callers := assignIn name value m.callers }
  else m.define name value

/-- Enters a call. -/
def push (m : Machine) (frame : Frame) : Machine :=
  { m with top := frame, callers := m.top :: m.callers }

/-- Leaves a call; the outermost frame stays. -/
def pop (m : Machine) : Machine :=
  match m.callers with
  | [] => m
  | frame :: callers => { m with top := frame, callers := callers }

def newArray (m : Machine) (items : Array Value) : Value × Machine :=
  (.array m.arrays.size, { m with arrays := m.arrays.push items })

def newFunction (m : Machine) (parameters : List String) (body : Block) : Value × Machine :=
  (.function ⟨m.functions, parameters, body⟩, { m with functions := m.functions + 1 })

def items (m : Machine) (id : Nat) : Array Value :=
  m.arrays.getD id #[]

/-- Writes an element of an array, or a new one behind the last. -/
def setItem (m : Machine) (id slot : Nat) (value : Value) : Machine :=
  { m with
    arrays := m.arrays.modify id fun items =>
      if slot = items.size then items.push value else items.setIfInBounds slot value }

/-- What printing a value would record now. -/
def printed (m : Machine) (value : Value) : Printed :=
  Printed.ofValue m.arrays value

def print (m : Machine) (value : Value) : Machine :=
  let item := m.printed value
  { m with output := m.output.push item }

mutual

/-- Stores a value given from outside; its arrays are new ones. -/
def store (m : Machine) : Datum → Value × Machine
  | .number x => (.number x, m)
  | .text s => (.text s, m)
  | .bool b => (.bool b, m)
  | .array items =>
      let (values, m) := m.storeAll items
      m.newArray values.toArray

def storeAll (m : Machine) : List Datum → List Value × Machine
  | [] => ([], m)
  | item :: items =>
      let (value, m) := m.store item
      let (values, m) := m.storeAll items
      (value :: values, m)

end

/-- The state without any variable. -/
def empty : Machine :=
  ⟨[], [], #[], 0, #[]⟩

/-- The state before a program: the variables given from outside, and the functions of the language,
which cannot be hidden by a variable of their name. -/
def initial (bindings : List (String × Datum)) : Machine :=
  let m := bindings.foldl (fun m (name, datum) =>
    let (value, m) := m.store datum
    m.define name value) empty
  Builtin.all.foldl (fun m f => m.define f.name (.builtin f)) m

end Machine

end PolishPseudocode
