import PolishPseudocode.Position
import PolishPseudocode.Text.Blank

/-! A program text as its lines. Columns are counted in the lines as they stand here, that is after
the first tab of a line has become four blanks. -/

namespace PolishPseudocode

/-- The lines of a text: it is cut at every line feed, so there is always at least one line. -/
def splitLines : List Char → List (List Char)
  | [] => [[]]
  | c :: rest =>
      if c = '\n' then [] :: splitLines rest
      else
        match splitLines rest with
        | [] => [[c]]
        | line :: lines => (c :: line) :: lines

/-- Replaces the first tab by four blanks and leaves every later tab alone. -/
def expandTab : List Char → List Char
  | [] => []
  | c :: rest => if c = '\t' then ' ' :: ' ' :: ' ' :: ' ' :: rest else c :: expandTab rest

/-- A program text, line by line. -/
structure Source where
  lines : List (List Char)
deriving DecidableEq, Repr

namespace Source

/-- Cuts a text into lines and widens the first tab of each. -/
def ofText (text : String) : Source :=
  ⟨(splitLines text.toList).map expandTab⟩

def lineTexts (source : Source) : List String :=
  source.lines.map String.ofList

/-- The characters of a line; a line past the end has none. -/
def line (source : Source) (i : Nat) : List Char :=
  source.lines.getD i []

def lineLength (source : Source) (i : Nat) : Nat :=
  (source.line i).length

/-- The text without any character at all: one empty line. -/
def isEmpty (source : Source) : Bool :=
  source.lines == [[]]

end Source

/-- Every text has a line. -/
theorem splitLines_ne_nil (text : List Char) : splitLines text ≠ [] := by
  cases text with
  | nil => simp [splitLines]
  | cons c rest =>
      rw [splitLines]
      split
      · simp
      · split <;> simp

/-- A line feed ends the last line before it. -/
theorem splitLines_append (before after : List Char) :
    splitLines (before ++ '\n' :: after) = splitLines before ++ splitLines after := by
  induction before with
  | nil => exact if_pos rfl
  | cons c before ih =>
      rw [List.cons_append, splitLines, splitLines, ih]
      split
      · rfl
      · cases hlines : splitLines before with
        | nil => exact absurd hlines (splitLines_ne_nil before)
        | cons line lines => rfl

end PolishPseudocode
