import PolishPseudocode.Token.Cursor

/-! All the tokens of a source: the pulls of a cursor from the start, up to the end of the text or
the first thing that is no token. -/

namespace PolishPseudocode

/-- A token with the cursor as it stands behind it. -/
structure Lexed where
  token : Token
  after : Cursor
deriving DecidableEq, Repr

inductive Ending where
  | finished (cursor : Cursor)
  | failed (error : SyntaxError)
deriving DecidableEq, Repr

/-- The tokens of a text and how they end. -/
structure Stream where
  tokens : List Lexed
  ending : Ending
deriving DecidableEq, Repr

namespace Cursor

/-- Less ahead is less work, since a line break is worth less than a character. -/
theorem work_lt_of_remaining_lt {source : Source} {c c' : Cursor}
    (h : c'.remaining source < c.remaining source) : c'.work source < c.work source := by
  unfold work
  split <;> split <;> omega

/-- A text literal that is read leaves less work. -/
theorem work_readText_lt {source : Source} {c c' : Cursor} {body : List Char} {token : Token}
    (hline : c.line < source.lines.length) (h : c.readText source body = (.token token, c')) :
    c'.work source < c.work source := by
  unfold readText at h
  dsimp only at h
  split at h
  · simp only [Prod.mk.injEq] at h
    rw [← h.2]
    exact work_lt_of_remaining_lt (remaining_advance_lt hline (by omega))
  · simp at h

/-- A pull that gives a token leaves less work. -/
theorem work_next_lt {source : Source} {c c' : Cursor} {token : Token}
    (h : c.next source = (.token token, c')) : c'.work source < c.work source := by
  fun_induction next source c with
  | case1 c hmore line hbreak =>
      cases h
      simp only [Bool.and_eq_true] at hbreak
      simp [work, remaining, hbreak.1]
  | case2 c hmore line hbreak hempty ih =>
      have hlt : (c.advance source 1).remaining source < c.remaining source :=
        remaining_advance_lt (line_lt_of_hasMore hmore) (by decide)
      have := work_lt_of_remaining_lt hlt
      have := ih h
      omega
  | case3 c hmore line hbreak hempty hindent =>
      cases h
      exact work_lt_of_remaining_lt (remaining_advance_lt (line_lt_of_hasMore hmore) (by decide))
  | case4 c hmore line hbreak hempty hindent hquote =>
      exact work_readText_lt (c := c.inLine) (line_lt_of_hasMore hmore) h
  | case5 => cases h
  | case6 c hmore line hbreak hempty hindent hquote found hfound kind hkind =>
      cases h
      exact work_lt_of_remaining_lt
        (remaining_advance_lt (c := c.inLine) (line_lt_of_hasMore hmore) found.length_pos)
  | case7 c hmore line hbreak hempty hindent hquote found hfound hkind ih =>
      have hlt := remaining_advance_lt (c := c.inLine) (line_lt_of_hasMore hmore) found.length_pos
      have := work_lt_of_remaining_lt hlt
      have : c.inLine.work source = c.work source := rfl
      have := ih h
      omega
  | case8 => cases h

end Cursor

namespace Stream

def ofCursor (source : Source) (c : Cursor) : Stream :=
  match _h : c.next source with
  | (.token token, after) =>
      let rest := ofCursor source after
      ⟨⟨token, after⟩ :: rest.tokens, rest.ending⟩
  | (.finished, after) => ⟨[], .finished after⟩
  | (.failed error, _) => ⟨[], .failed error⟩
termination_by c.work source
decreasing_by exact Cursor.work_next_lt (by assumption)

def ofSource (source : Source) : Stream :=
  ofCursor source .start

end Stream

end PolishPseudocode
