import PolishPseudocode.Proofs.Token.Rewinding
import PolishPseudocode.Proofs.Token.Rounds
import PolishPseudocode.Proofs.Token.Spans

/-! Where a cursor comes to by pulls, by steps back and by moves to any place, in any order and also behind errors. It
is behind the text, or on a line and not further than behind its last character; what it hands out starts at a
character; and with each token it goes on, or hands out the line break of a line it has just come to, once. From all
these places, a move to a line break leads to the same pulls as before. -/

namespace PolishPseudocode

namespace Cursor

/-- The states of a cursor that are reached from the start of a source by any moves. -/
inductive Reached (source : Source) : Cursor → Prop where
  | start : Reached source .start
  | next {c : Cursor} (h : Reached source c) : Reached source (c.next source).2
  | stepBack {c : Cursor} (h : Reached source c) : Reached source (c.stepBack source)
  | moveTo {c : Cursor} (h : Reached source c) (place : Position) (newLine : Bool) :
      Reached source (c.moveTo source place newLine)

/-- Behind the text, or on a line and not further than behind its last character. Where the cursor has just come to
the line, it is at the start or at a character. -/
structure Placed (source : Source) (c : Cursor) : Prop where
  column : source.lines.length ≤ c.line ∨ c.column ≤ source.lineLength c.line
  entered : c.crossed = true → source.lines.length ≤ c.line ∨ c.column = 0 ∨ c.column < source.lineLength c.line

variable {source : Source} {c after : Cursor} {t : Token}

/-! ### Moves -/

/-- A move to a column leads behind the text, to the start of a line or to a character. -/
theorem place_setColumn (c : Cursor) (column : Nat) :
    source.lines.length ≤ (c.setColumn source column).line ∨ (c.setColumn source column).column = 0
      ∨ (c.setColumn source column).column < source.lineLength (c.setColumn source column).line := by
  rw [setColumn]
  split
  · rename_i hline
    exact .inl hline
  · split
    · exact .inr (.inl rfl)
    · rename_i hlength
      exact .inr (.inr (Nat.lt_of_not_le hlength))

theorem Placed.of_place
    (h : source.lines.length ≤ c.line ∨ c.column = 0 ∨ c.column < source.lineLength c.line) : c.Placed source := by
  refine ⟨?_, fun _ => h⟩
  rcases h with hline | hzero | hlt
  · exact .inl hline
  · exact .inr (hzero ▸ Nat.zero_le _)
  · exact .inr (Nat.le_of_lt hlt)

theorem placed_setColumn (c : Cursor) (column : Nat) : (c.setColumn source column).Placed source :=
  .of_place (place_setColumn c column)

theorem placed_moveTo (c : Cursor) (place : Position) (newLine : Bool) :
    (c.moveTo source place newLine).Placed source := by
  cases newLine with
  | false => exact .of_place (place_setColumn { c with line := place.line } place.column)
  | true => exact .of_place (place_setColumn { c with line := place.line } place.column)

theorem Placed.stepBack (h : c.Placed source) : (c.stepBack source).Placed source := by
  rw [Cursor.stepBack]
  split
  · exact placed_setColumn _ _
  · split
    · exact ⟨.inr (Nat.le_refl _), fun hcrossed => Bool.noConfusion hcrossed⟩
    · exact h

theorem Placed.next (h : c.Placed source) : (c.next source).2.Placed source := by
  fun_induction Cursor.next source c with
  | case1 c hmore line hbreak => exact ⟨h.column, fun hcrossed => Bool.noConfusion hcrossed⟩
  | case2 c hmore line hbreak hempty ih => exact ih (placed_setColumn _ _)
  | case3 c hmore line hbreak hempty hindent => exact .of_place (place_setColumn c (c.column + indentUnit.length))
  | case4 c hmore line hbreak hempty hindent hquote =>
      rw [readText]
      dsimp only
      split
      · exact placed_setColumn _ _
      · exact ⟨.inr (Nat.le_refl _), fun hcrossed => Bool.noConfusion hcrossed⟩
  | case5 c hmore line hbreak hempty hindent hquote hnone => exact ⟨h.column, h.entered⟩
  | case6 => exact placed_setColumn _ _
  | case7 c hmore line hbreak hempty hindent hquote found hfound hkind ih => exact ih (placed_setColumn _ _)
  | case8 c hmore => exact h

theorem Reached.placed (h : c.Reached source) : c.Placed source := by
  induction h with
  | start => exact .of_place (.inr (.inl rfl))
  | next h ih => exact ih.next
  | stepBack h ih => exact ih.stepBack
  | moveTo h place newLine ih => exact placed_moveTo _ place newLine

theorem Reached.afterPulls (h : c.Reached source) (n : Nat) : (c.afterPulls source n).Reached source := by
  induction n with
  | zero => exact h
  | succ n ih =>
      rw [afterPulls_add]
      exact ih.next

/-! ### Tokens -/

theorem lt_advance (hline : c.line < source.lines.length) {count : Nat} (hcount : 0 < count) :
    c.position < (c.advance source count).position := by
  rw [Position.lt_iff]
  by_cases hlt : c.column + count < source.lineLength c.line
  · rw [advance_of_lt hlt]
    exact .inr ⟨rfl, Nat.lt_add_of_pos_right hcount⟩
  · rw [advance_of_le hline (Nat.le_of_not_lt hlt)]
    exact .inl (Nat.lt_succ_self c.line)

theorem has_of_rest_ne_nil (h : c.rest source ≠ []) : source.Has c.position := by
  rw [rest, ne_eq, List.drop_eq_nil_iff] at h
  exact Nat.lt_of_not_le h

/-- What is passed over leads further, and to a place where the cursor may stand. -/
theorem Passes.placed {c' : Cursor} (hpasses : Passes source c c') (h : c.Placed source) :
    c'.Placed source ∧ (c' = c ∨ c.position < c'.position) := by
  induction hpasses with
  | refl c => exact ⟨h, .inl rfl⟩
  | emptyLine hmore hempty hpasses ih =>
      have hlt := lt_advance (line_lt_of_hasMore hmore) Nat.one_pos
      obtain ⟨hplaced, hsame⟩ := ih (placed_setColumn _ _)
      refine ⟨hplaced, .inr ?_⟩
      rcases hsame with rfl | hfurther
      · exact hlt
      · exact hlt.trans hfurther
  | @lexeme c c' found hmore hfound hkind hpasses ih =>
      have hlt := lt_advance (c := c.inLine) (line_lt_of_hasMore hmore) found.length_pos
      obtain ⟨hplaced, hsame⟩ := ih (placed_setColumn _ _)
      refine ⟨hplaced, .inr ?_⟩
      rcases hsame with rfl | hfurther
      · exact hlt
      · exact lt_trans hlt hfurther

/-- A token is handed out at a character, if the cursor stands where it may. -/
theorem HandsOut.has (hout : c.HandsOut source t after) (h : c.Placed source) (hmore : c.hasMore source = true) :
    source.Has t.position := by
  cases hout with
  | newLine hcrossed hsignificant =>
      rcases h.entered hcrossed with hline | hzero | hlt
      · exact absurd (line_lt_of_hasMore hmore) (Nat.not_lt.2 hline)
      · exact Nat.lt_of_le_of_lt (Nat.le_of_eq hzero) (lineLength_pos_of_isSignificant hsignificant)
      · exact hlt
  | indentation hstarts =>
      refine has_of_rest_ne_nil fun hnil => ?_
      rw [hnil] at hstarts
      cases hstarts
  | text hrest => exact has_of_rest_ne_nil (by rw [hrest]; exact List.cons_ne_nil _ _)
  | lexeme hquote hfound hkind =>
      refine has_of_rest_ne_nil fun hnil => ?_
      rw [hnil] at hfound
      cases hfound

/-- Behind a token the cursor has gone on, unless the token is a line break. -/
theorem HandsOut.goes_on (hout : c.HandsOut source t after) (hmore : c.hasMore source = true) :
    c.position < after.position
      ∨ t.kind = .newLine ∧ after.position = c.position ∧ c.crossed = true ∧ after.crossed = false := by
  have hline := line_lt_of_hasMore hmore
  cases hout with
  | newLine hcrossed => exact .inr ⟨rfl, rfl, hcrossed, rfl⟩
  | indentation => exact .inl (lt_advance hline (by decide))
  | text => exact .inl (lt_advance (c := c.inLine) hline (Nat.succ_pos _))
  | @lexeme found => exact .inl (lt_advance (c := c.inLine) hline found.length_pos)

/-- A token is handed out at a character, and the cursor goes on; only at a line break it can stay, and then it has no
longer just come to the line. -/
theorem Placed.of_token (h : c.Placed source) (hnext : c.next source = (.token t, after)) :
    source.Has t.position ∧ (c.position < after.position
      ∨ t.kind = .newLine ∧ after.position = c.position ∧ c.crossed = true ∧ after.crossed = false) := by
  obtain ⟨c', hpasses, hmore, hout⟩ := exists_handsOut hnext
  obtain ⟨hplaced, rfl | hlt⟩ := hpasses.placed h
  · exact ⟨hout.has hplaced hmore, hout.goes_on hmore⟩
  · refine ⟨hout.has hplaced hmore, .inl ?_⟩
    rcases hout.goes_on hmore with hafter | ⟨-, hafter, -⟩
    · exact hlt.trans hafter
    · rwa [hafter]

/-- Wherever a cursor has come to, it is behind the text, or on a line and not further than behind its last character;
a pull is done within as many rounds as there are characters and line ends ahead, and one more; a token starts at a
character, and the cursor goes on, or stays at a line break and then has no longer just come to the line; and only so
many pulls in a row give tokens. -/
theorem advances_of_reached (h : c.Reached source) :
    (source.lines.length ≤ c.line ∨ c.column ≤ source.lineLength c.line)
      ∧ rounds source (c.remaining source + 1) .lexeme c = some (c.next source)
      ∧ (∀ t after, c.next source = (.token t, after) → source.Has t.position
        ∧ (c.position < after.position
          ∨ t.kind = .newLine ∧ after.position = c.position ∧ c.crossed = true ∧ after.crossed = false))
      ∧ ∀ n, (∀ m < n, ∃ t, c.pull source m = .token t) → n ≤ c.work source :=
  ⟨h.placed.column, rounds_eq_next _ (Nat.lt_succ_self _), fun _ _ hnext => h.placed.of_token hnext,
    fun _ htokens => le_work_of_tokens htokens⟩

/-- Behind the end of a line after a step back from the next one, which was entered by a move to a place that the line
before does not have. -/
theorem advances_of_reached_lineEnd :
    let source := Source.ofText "wypisz \"ab\"\nx <- 1"
    let c : Cursor := ⟨0, 11, false, false, false⟩
    c.Reached source
      ∧ (source.lines.length ≤ c.line ∨ c.column ≤ source.lineLength c.line)
      ∧ rounds source (c.remaining source + 1) .lexeme c = some (c.next source)
      ∧ (∀ t after, c.next source = (.token t, after) → source.Has t.position
        ∧ (c.position < after.position
          ∨ t.kind = .newLine ∧ after.position = c.position ∧ c.crossed = true ∧ after.crossed = false))
      ∧ ∀ n, (∀ m < n, ∃ t, c.pull source m = .token t) → n ≤ c.work source := by
  intro source c
  have hmoved : ((Cursor.start.next source).2.moveTo source ⟨0, 99⟩ true).stepBack source = c := by decide +kernel
  have h : c.Reached source := hmoved ▸ (Reached.start.next.moveTo ⟨0, 99⟩ true).stepBack
  exact ⟨h, advances_of_reached h⟩

/-! ### Back at a line break -/

/-- A pull behind a line break does not depend on whether indentation was read before the line break. -/
theorem next_behind_newLine {p : Position} (h : source.Has p) (flag flag' : Bool) :
    next source ⟨p.line, p.column, false, true, flag⟩ = next source ⟨p.line, p.column, false, true, flag'⟩ := by
  cases hunit : indentUnit.isPrefixOf ((source.line p.line).drop p.column) with
  | false =>
      have hnext (flag : Bool) := next_of_column_lt (c := ⟨p.line, p.column, false, true, flag⟩) h rfl hunit
      rw [hnext flag, hnext flag']
      rfl
  | true =>
      have hnext (flag : Bool) := next_of_indentation (c := ⟨p.line, p.column, false, true, flag⟩) h rfl hunit
      rw [hnext flag, hnext flag']
      by_cases hlt : p.column + indentUnit.length < source.lineLength p.line
      · have hadvance (flag : Bool) := advance_of_lt (c := ⟨p.line, p.column, false, true, flag⟩) hlt
        rw [hadvance flag, hadvance flag']
        rfl
      · have hadvance (flag : Bool) :=
          advance_of_le (c := ⟨p.line, p.column, false, true, flag⟩) h.line_lt (Nat.le_of_not_lt hlt)
        rw [hadvance flag, hadvance flag']
        rfl

/-- Where the next pull is the same, all pulls are. -/
theorem pull_congr {c' : Cursor} (h : c.next source = c'.next source) (n : Nat) :
    c.pull source n = c'.pull source n := by
  cases n with
  | zero => exact congrArg Prod.fst h
  | succ n =>
      cases hnext : c'.next source with
      | mk first after => rw [pull_succ (h.trans hnext), pull_succ hnext]

/-- A cursor that has handed out a line break, and any cursor that is moved back to it: from there on, all pulls give
the same, the line break first, then the tokens behind it, and what comes at the end of them. -/
theorem pull_moveTo_newLine {n : Nat} (h : Cursor.start.pull source n = .token t) (ht : t.kind = .newLine)
    (c : Cursor) (k : Nat) :
    (c.moveTo source t.position true).pull source k = Cursor.start.pull source (n + k) := by
  have hnext := next_of_pull h
  have hplaced : (Cursor.start.afterPulls source n).Placed source := (Reached.start.afterPulls n).placed
  have hhas := (hplaced.of_token hnext).1
  obtain ⟨hafter, hsignificant, -⟩ := exists_of_next_newLine hnext ht
  -- The line break itself is read again, and the cursors behind it differ in one flag at most.
  have hmoved : (c.moveTo source t.position true).next source
      = (.token t, ⟨t.position.line, t.position.column, false, true, c.afterIndentation⟩) := by
    rw [moveTo_of_has hhas, next_of_isSignificant rfl hsignificant, ← ht]
    rfl
  cases k with
  | zero => exact (congrArg Prod.fst hmoved).trans h.symm
  | succ k =>
      rw [pull_succ hmoved, ← Nat.succ_add_eq_add_succ, pull_add, hafter]
      exact pull_congr (next_behind_newLine hhas _ _) k

/-- Back at the line break in front of an indented line, from behind the error that ends the text. -/
theorem pull_moveTo_newLine_error :
    let source := Source.ofText "wypisz 1\n# x\n        y <- 2\nwypisz \"ab"
    let t : Token := ⟨.newLine, ⟨2, 0⟩⟩
    let c := (Cursor.start.afterPulls source 12).stepBack source
    Cursor.start.pull source 2 = .token t ∧ t.kind = .newLine ∧ c.Reached source
      ∧ Cursor.start.pull source 10 = .failed ⟨.unterminatedText true, ⟨3, 10⟩⟩
      ∧ ∀ k, (c.moveTo source t.position true).pull source k = Cursor.start.pull source (2 + k) := by
  intro source t c
  have h : Cursor.start.pull source 2 = .token t := by decide +kernel
  exact ⟨h, rfl, (Reached.start.afterPulls 12).stepBack, by decide +kernel, pull_moveTo_newLine h rfl c⟩

end Cursor

end PolishPseudocode
