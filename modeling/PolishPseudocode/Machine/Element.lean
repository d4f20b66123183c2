import PolishPseudocode.Fault
import PolishPseudocode.Machine
import PolishPseudocode.Number.Integral

/-! Elements of arrays and characters of texts. Both are addressed by numbers that start at an
origin, one for arrays and one for texts. -/

namespace PolishPseudocode

/-- The indices of the first element of an array and of the first character of a text. -/
structure Origins where
  arrays : Int
  texts : Int
deriving DecidableEq, Repr

/-- Unless told otherwise, both count from one. -/
def Origins.one : Origins :=
  ⟨1, 1⟩

def Origins.zero : Origins :=
  ⟨0, 0⟩

/-- The slot that a value addresses as an index. -/
def Value.slot? (index : Value) (origin : Int) : Option Nat :=
  match index with
  | .number x => Number.slot? x origin
  | _ => none

/-- The character of a text of one character. -/
def Value.character? : Value → Option Char
  | .text s =>
      match s.toList with
      | [c] => some c
      | _ => none
  | _ => none

/-- Whether a value has elements or characters. -/
def Value.isIndexable : Value → Bool
  | .array _ | .text _ => true
  | _ => false

/-- A change of the state that is known to be possible. -/
inductive Write where
  /-- An element of an array gets a value, or the array one more element. -/
  | item (id slot : Nat) (value : Value)
  /-- A variable gets a value. -/
  | var (name : String) (value : Value)
deriving Repr

namespace Machine

/-- The error for an index that addresses nothing. -/
def outside (m : Machine) (index : Value) (what : Indexed) (subject : String) (place : Position) :
    RuntimeError :=
  ⟨.outOfRange (m.printed index).display what subject, place⟩

/-- Reads an element of an array or a character of a text. `place` is that of the opening bracket; a
bad index is reported one character behind it. -/
def element (m : Machine) (o : Origins) (target index : Value) (subject : String)
    (place : Position) : Except RuntimeError Value :=
  match target with
  | .array id =>
      match (index.slot? o.arrays).bind fun slot => (m.items id)[slot]? with
      | some value => .ok value
      | none => .error (m.outside index .reading subject place.right)
  | .text s =>
      match (index.slot? o.texts).bind fun slot => s.toList[slot]? with
      | some c => .ok (.text (String.singleton c))
      | none => .error (m.outside index .reading subject place.right)
  | _ => .error ⟨.notIndexable subject, place⟩

/-- The value of a variable whose element is written. A variable that is new becomes an empty array.
-/
def elementOwner (m : Machine) (name : String) : Value × Machine :=
  match m.lookup name with
  | some value => (value, m)
  | none =>
      let (array, m) := m.newArray #[]
      (array, m.define name array)

/-- The text with the character of one slot replaced, or with one more character behind the last. -/
def spliced (s : String) (slot : Nat) (c : Char) : String :=
  String.ofList (s.toList.take slot ++ c :: s.toList.drop (slot + 1))

/-- The write that changes an element of `owner`, the value that the variable `name` had when its
index, written at `place`, was still to be computed. An array is changed for all who refer to it; a
text is replaced by another one. Neither may get a gap. -/
def elementWrite (m : Machine) (o : Origins) (name : Name) (owner index value : Value)
    (place : Position) : Except RuntimeError Write :=
  match owner with
  | .array id =>
      match index.slot? o.arrays with
      | none => .error (m.outside index .writing name.name place)
      | some slot =>
          if (m.items id).size < slot then .error (m.outside index .writing name.name place)
          else .ok (.item id slot value)
  | .text s =>
      match index.slot? o.texts with
      | none => .error (m.outside index .writing name.name place)
      | some slot =>
          if s.length < slot then .error (m.outside index .writingText name.name place)
          else
            match value.character? with
            | none => .error ⟨.notACharacter, name.position⟩
            | some c => .ok (.var name.name (.text (spliced s slot c)))
  | _ => .error ⟨.notIndexable name.name, name.position⟩

def perform (m : Machine) : Write → Machine
  | .item id slot value => m.setItem id slot value
  | .var name value => m.assign name value

end Machine

end PolishPseudocode
