import PolishPseudocode.Source
import PolishPseudocode.SyntaxError
import PolishPseudocode.Token.Lexeme

/-! A cursor walks over the lines of a source and hands out one token at a time. It emits a line
break before every line that has something to say, and an indentation for each four blanks at the
start of such a line. It may be moved back. -/

namespace PolishPseudocode

/-- Where reading stands. `crossed` says that the last move left a line; the other two flags say
that only a line break, or only indentation, was read on this line so far. -/
structure Cursor where
  line : Nat
  column : Nat
  crossed : Bool
  afterNewLine : Bool
  afterIndentation : Bool
deriving DecidableEq, Repr

/-- What one pull of the cursor gives. -/
inductive Pull where
  | token (token : Token)
  | finished
  | failed (error : SyntaxError)
deriving DecidableEq, Repr

/-- Whether a line counts for the layout: it is neither blank nor a comment from its first character
on. -/
def isSignificant (line : List Char) : Bool :=
  !line.all isBlank && line.head? != some '#'

/-- The blanks of one level of indentation. -/
def indentUnit : List Char :=
  [' ', ' ', ' ', ' ']

namespace Cursor

/-- The start of a text, which counts as following a line break. -/
def start : Cursor :=
  ⟨0, 0, false, true, false⟩

def position (c : Cursor) : Position :=
  ⟨c.line, c.column⟩

/-- Whether lines are left. An empty text has nothing to read. -/
def hasMore (source : Source) (c : Cursor) : Bool :=
  decide (c.line < source.lines.length) && !source.isEmpty

/-- Moves to a column of the current line, or to the start of the next line if this one is not that
long. -/
def setColumn (source : Source) (c : Cursor) (column : Nat) : Cursor :=
  if source.lines.length ≤ c.line then c
  else if source.lineLength c.line ≤ column then
    { c with line := c.line + 1, column := 0, crossed := true }
  else { c with column := column, crossed := false }

def advance (source : Source) (c : Cursor) (count : Nat) : Cursor :=
  c.setColumn source (c.column + count)

/-- Moves to any place; with `newLine` the next pull takes the line as just entered. -/
def moveTo (source : Source) (c : Cursor) (place : Position) (newLine : Bool) : Cursor :=
  let moved := { c with line := place.line }.setColumn source place.column
  if newLine then { moved with crossed := true } else moved

/-- Moves one character back, from the start of a line behind the end of the line before. -/
def stepBack (source : Source) (c : Cursor) : Cursor :=
  if 0 < c.column then c.setColumn source (c.column - 1)
  else if 0 < c.line then
    { c with line := c.line - 1, column := source.lineLength (c.line - 1), crossed := false }
  else c

/-- The characters of the current line from the cursor on. -/
def rest (source : Source) (c : Cursor) : List Char :=
  (source.line c.line).drop c.column

/-- The cursor once something other than indentation is read on the line. -/
def inLine (c : Cursor) : Cursor :=
  { c with afterNewLine := false, afterIndentation := false }

/-- How many characters and line ends lie ahead. -/
def remaining (source : Source) (c : Cursor) : Nat :=
  (source.lines.drop c.line).foldr (fun line count => line.length + 1 + count) 0
    - min c.column (source.lineLength c.line)

/-- A bound for the number of pulls that give a token: a line break is read without moving, but only
once. -/
def work (source : Source) (c : Cursor) : Nat :=
  2 * c.remaining source + if c.crossed then 1 else 0

/-- A move to a later column leaves less ahead, whether or not it leaves the line. -/
theorem remaining_setColumn_lt {source : Source} {c : Cursor} {column : Nat}
    (hline : c.line < source.lines.length) (hcolumn : c.column < column) :
    (c.setColumn source column).remaining source < c.remaining source := by
  have hline' : ¬ source.lines.length ≤ c.line := by omega
  have hdrop : source.lines.drop c.line = source.line c.line :: source.lines.drop (c.line + 1) := by
    rw [List.drop_eq_getElem_cons hline]
    simp [Source.line, hline]
  have hsum : (source.lines.drop c.line).foldr (fun line count => line.length + 1 + count) 0
      = source.lineLength c.line + 1
        + (source.lines.drop (c.line + 1)).foldr (fun line count => line.length + 1 + count) 0 := by
    rw [hdrop, List.foldr_cons]
    rfl
  unfold setColumn
  rw [if_neg hline']
  split
  · simp only [remaining]
    rw [hsum]
    omega
  · simp only [remaining]
    rw [hsum]
    omega

/-- Moving over something leaves less ahead. -/
theorem remaining_advance_lt {source : Source} {c : Cursor} {count : Nat}
    (hline : c.line < source.lines.length) (hcount : 0 < count) :
    (c.advance source count).remaining source < c.remaining source :=
  remaining_setColumn_lt hline (by omega)

/-- While there is more to read, the cursor is on a line. -/
theorem line_lt_of_hasMore {source : Source} {c : Cursor} (h : c.hasMore source = true) :
    c.line < source.lines.length := by
  simp only [hasMore, Bool.and_eq_true, decide_eq_true_eq] at h
  exact h.1

/-- Reads a text literal whose opening quote is at the cursor and whose other characters on this
line are `body`. It ends at the next quote of the line; without one the cursor stays behind the end
of the line. -/
def readText (source : Source) (c : Cursor) (body : List Char) : Pull × Cursor :=
  let content := body.takeWhile (· != '"')
  if content.length < body.length then
    (.token ⟨.text (String.ofList content), c.position⟩, c.advance source (content.length + 2))
  else
    let ending := { c with column := source.lineLength c.line, crossed := false }
    let isLast := decide (source.lines.length ≤ c.line + 1)
    (.failed ⟨.unterminatedText isLast, ending.position⟩, ending)

/-- Pulls the next token. Blanks, comments and empty lines are passed over. -/
def next (source : Source) (c : Cursor) : Pull × Cursor :=
  if _ : c.hasMore source = true then
    let line := source.line c.line
    if c.crossed && isSignificant line then
      (.token ⟨.newLine, c.position⟩, { c with crossed := false, afterNewLine := true })
    else if line.isEmpty then
      next source (c.advance source 1)
    else if (c.afterNewLine || c.afterIndentation) && indentUnit.isPrefixOf (c.rest source) then
      (.token ⟨.indentation, c.position⟩,
        { c.advance source indentUnit.length with afterNewLine := false, afterIndentation := true })
    else if (c.rest source).head? = some '"' then
      c.inLine.readText source ((c.rest source).drop 1)
    else
      match Lexeme.recognise (c.rest source) with
      | none => (.failed ⟨.unknownToken (String.ofList (c.rest source)), c.position⟩, c.inLine)
      | some found =>
          match found.lexeme with
          | .token kind => (.token ⟨kind, c.position⟩, c.inLine.advance source found.length)
          | _ => next source (c.inLine.advance source found.length)
  else (.finished, c)
termination_by c.remaining source
decreasing_by
  · exact remaining_advance_lt (line_lt_of_hasMore (by assumption)) (by decide)
  · exact remaining_advance_lt (c := c.inLine) (line_lt_of_hasMore (by assumption)) found.length_pos

end Cursor

end PolishPseudocode
