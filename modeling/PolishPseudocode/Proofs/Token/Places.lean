import PolishPseudocode.Token.Stream

/-! Places in a source. A cursor is always at a character, at the start of a line or at the end of the source.
So every token starts at a character, what is no token is reported at one or behind the last one of a line, and
a step back from behind a token stays in the source. -/

namespace PolishPseudocode

namespace Source

def Has (source : Source) (p : Position) : Prop :=
  p.column < source.lineLength p.line

/-- There is a character at the place, or the line of the place ends there. -/
structure Shows (source : Source) (p : Position) : Prop where
  line : p.line < source.lines.length
  column : p.column ≤ source.lineLength p.line

variable {source : Source} {p : Position}

theorem lineLength_of_le {i : Nat} (h : source.lines.length ≤ i) : source.lineLength i = 0 := by
  rw [lineLength, line, List.getD_eq_getElem?_getD, List.getElem?_eq_none h]
  rfl

theorem Has.line_lt (h : source.Has p) : p.line < source.lines.length := by
  refine Nat.lt_of_not_le fun hline => ?_
  rw [Has, lineLength_of_le hline] at h
  exact Nat.not_lt_zero _ h

theorem Has.shows (h : source.Has p) : source.Shows p :=
  ⟨h.line_lt, Nat.le_of_lt h⟩

/-- Behind a character of a line there is still a place to show. -/
theorem Has.shows_right (h : source.Has p) : source.Shows p.right :=
  ⟨h.line_lt, h⟩

end Source

/-! ### Cursors -/

/-- At a character, at the start of a line or at the end of the source. -/
structure Cursor.Within (source : Source) (c : Cursor) : Prop where
  line : c.line ≤ source.lines.length
  column : c.column = 0 ∨ c.column < source.lineLength c.line

namespace Cursor

variable {source : Source} {c : Cursor}

theorem start_within (source : Source) : Cursor.start.Within source :=
  ⟨Nat.zero_le _, .inl rfl⟩

/-- On a line with characters the cursor is at one of them. -/
theorem Within.has (h : c.Within source) (hline : (source.line c.line).isEmpty = false) :
    source.Has c.position := by
  have hpos : 0 < source.lineLength c.line :=
    List.length_pos_iff.2 (List.isEmpty_eq_false_iff.1 hline)
  rcases h.column with hzero | hlt
  · exact Nat.lt_of_le_of_lt (Nat.le_of_eq hzero) hpos
  · exact hlt

theorem Within.advance (h : c.Within source) (count : Nat) : (c.advance source count).Within source := by
  rw [Cursor.advance, setColumn]
  split
  · exact h
  · rename_i hline
    split
    · exact ⟨Nat.lt_of_not_le hline, .inl rfl⟩
    · rename_i hcolumn
      exact ⟨h.line, .inr (Nat.lt_of_not_le hcolumn)⟩

/-- A step back stays in the source. -/
theorem Within.shows_stepBack (h : c.Within source) (hlines : 0 < source.lines.length) :
    source.Shows (c.stepBack source).position := by
  rw [stepBack]
  split
  · rename_i hcolumn
    have hhas : source.Has c.position := h.column.resolve_left (Nat.ne_of_gt hcolumn)
    have hline : ¬ source.lines.length ≤ c.line := Nat.not_le_of_lt hhas.line_lt
    have hlt : c.column - 1 < source.lineLength c.line := Nat.lt_of_le_of_lt (Nat.sub_le _ 1) hhas
    rw [setColumn, if_neg hline, if_neg (Nat.not_le_of_lt hlt)]
    exact ⟨hhas.line_lt, Nat.le_of_lt hlt⟩
  · rename_i hcolumn
    split
    · rename_i hline
      exact ⟨Nat.lt_of_lt_of_le (Nat.sub_lt hline Nat.one_pos) h.line, Nat.le_refl _⟩
    · rename_i hline
      have hfirst : c.line = 0 := Nat.eq_zero_of_not_pos hline
      have hzero : c.column = 0 := Nat.eq_zero_of_not_pos hcolumn
      rw [position, hfirst, hzero]
      exact ⟨hlines, Nat.zero_le _⟩

/-- A move to a character. -/
theorem moveTo_of_has {p : Position} (h : source.Has p) (c : Cursor) (newLine : Bool) :
    c.moveTo source p newLine = { c with line := p.line, column := p.column, crossed := newLine } := by
  have hset : ({ c with line := p.line } : Cursor).setColumn source p.column
      = { c with line := p.line, column := p.column, crossed := false } := by
    rw [setColumn, if_neg (Nat.not_le.2 h.line_lt), if_neg (Nat.not_le.2 h)]
  rw [moveTo, hset]
  cases newLine <;> rfl

/-- What a pull gives is in the source, and so is the cursor behind a token or at the end. -/
def PullsWithin (source : Source) : Pull × Cursor → Prop
  | (.token t, after) => source.Has t.position ∧ after.Within source
  | (.finished, after) => after.Within source
  | (.failed e, _) => source.Shows e.position

theorem Within.readText (h : c.Within source) (hhas : source.Has c.position) (body : List Char) :
    PullsWithin source (c.readText source body) := by
  rw [Cursor.readText]
  dsimp only
  split
  · exact ⟨hhas, h.advance _⟩
  · exact ⟨hhas.line_lt, Nat.le_refl _⟩

theorem isEmpty_eq_false_of_isSignificant {line : List Char} (h : isSignificant line = true) :
    line.isEmpty = false := by
  cases line with
  | nil => cases h
  | cons c rest => rfl

theorem Within.next (h : c.Within source) : PullsWithin source (c.next source) := by
  fun_induction Cursor.next source c with
  | case1 c hmore line hbreak =>
      have hsignificant := (Bool.and_eq_true_iff.1 hbreak).2
      exact ⟨h.has (isEmpty_eq_false_of_isSignificant hsignificant), h.line, h.column⟩
  | case2 c hmore line hbreak hempty ih => exact ih (h.advance 1)
  | case3 c hmore line hbreak hempty hindent =>
      have hafter := h.advance indentUnit.length
      exact ⟨h.has (by simpa using hempty), hafter.line, hafter.column⟩
  | case4 c hmore line hbreak hempty hindent hquote =>
      have hin : c.inLine.Within source := ⟨h.line, h.column⟩
      exact hin.readText (h.has (by simpa using hempty)) _
  | case5 c hmore line hbreak hempty hindent hquote hnone => exact (h.has (by simpa using hempty)).shows
  | case6 c hmore line hbreak hempty hindent hquote found hfound kind hkind =>
      have hin : c.inLine.Within source := ⟨h.line, h.column⟩
      exact ⟨h.has (by simpa using hempty), hin.advance _⟩
  | case7 c hmore line hbreak hempty hindent hquote found hfound hkind ih =>
      have hin : c.inLine.Within source := ⟨h.line, h.column⟩
      exact ih (hin.advance _)
  | case8 c hmore => exact h

end Cursor

/-! ### Tokens -/

/-- A token at a character, with the cursor behind it in the source. -/
structure Lexed.Within (source : Source) (t : Lexed) : Prop where
  position : source.Has t.token.position
  after : t.after.Within source

def Ending.Within (source : Source) : Ending → Prop
  | .finished c => c.Within source
  | .failed e => source.Shows e.position

structure Stream.Within (source : Source) (stream : Stream) : Prop where
  tokens : ∀ t ∈ stream.tokens, t.Within source
  ending : stream.ending.Within source

theorem Stream.ofCursor_within {source : Source} {c : Cursor} (h : c.Within source) :
    (Stream.ofCursor source c).Within source := by
  have hnext := h.next
  fun_induction Stream.ofCursor source c with
  | case1 c token after hpull rest ih =>
      rw [hpull] at hnext
      have hrest := ih hnext.2 hnext.2.next
      exact ⟨List.forall_mem_cons.2 ⟨⟨hnext.1, hnext.2⟩, hrest.tokens⟩, hrest.ending⟩
  | case2 c after hpull =>
      rw [hpull] at hnext
      exact ⟨List.forall_mem_nil _, hnext⟩
  | case3 c error after hpull =>
      rw [hpull] at hnext
      exact ⟨List.forall_mem_nil _, hnext⟩

end PolishPseudocode
