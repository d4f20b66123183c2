/-! Places in a program text. Lines and columns count from zero and a column counts characters; the
texts shown to a reader count both from one. -/

namespace PolishPseudocode

/-- A place in a text: a line and a character of that line, both counted from zero. -/
structure Position where
  line : Nat
  column : Nat
deriving DecidableEq, Repr, Inhabited

namespace Position

/-- The place as `line:column`, both counted from one. -/
def text (p : Position) : String :=
  toString (p.line + 1) ++ ":" ++ toString (p.column + 1)

/-- The place one character further on the same line. -/
def right (p : Position) : Position :=
  { p with column := p.column + 1 }

end Position

end PolishPseudocode
