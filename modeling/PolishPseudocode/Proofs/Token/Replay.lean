import PolishPseudocode.Proofs.Token.Places
import PolishPseudocode.Proofs.Token.Pulls

/-! Going back in a text. A cursor that is moved to a line break, from anywhere, reads that line break again
and all that follows it. Moved to the indentation of a line while its flags are off, it reads the first token
behind the indentation again. And a cursor that has left a line behind a token finds a line break, or nothing:
that the line was left tells no more than the next token. -/

namespace PolishPseudocode

namespace Stream

variable {source : Source} {before after : List Token} {nl : Token}

/-- The first token of later lines is a line break. -/
theorem newLine_of_mem_head_lineStart (source : Source) (j : Nat) :
    ∀ t ∈ (ofCursor source (lineStart (j + 1))).scan.tokens.head?, t.kind = .newLine := by
  rw [scan_lineStart _ (Nat.succ_pos j)]
  exact newLine_of_mem_head_scanLines (Nat.succ_pos j)

/-! ### Back at a line break -/

/-- Where a line break stands in a text, all that follows it is the rest of its line and the later lines. -/
theorem exists_content_of_newLine (hnl : nl.kind = .newLine)
    (h : (ofSource source).scan.tokens = before ++ nl :: after) :
    ∃ j, nl = ⟨.newLine, ⟨j, 0⟩⟩ ∧ isSignificant (source.line j) = true
      ∧ scanContent source j ++ (ofCursor source (lineStart (j + 1))).scan
        = ⟨after, (ofSource source).scan.error⟩ := by
  obtain ⟨strays, hstrays, hscan⟩ := exists_scan_ofSource source
  rw [Scan.append_of_error_none rfl] at hscan
  have hbefore : ∃ before', (scanLines source source.lines.length 0).tokens = before' ++ nl :: after := by
    rw [hscan] at h
    rcases List.append_eq_append_iff.1 h with ⟨before', -, hlines⟩ | ⟨behind, hbehind, hlines⟩
    · exact ⟨before', hlines⟩
    · cases behind with
      | nil => exact ⟨[], hlines.symm⟩
      | cons t behind =>
          -- A line break is none of the indentations in front of the first line.
          cases (List.cons.inj hlines).1
          have hsplit : strays = before ++ nl :: behind := hbehind
          have hmem : nl ∈ strays := by
            rw [hsplit]
            simp
          cases (hstrays nl hmem).kind.symm.trans hnl
  obtain ⟨before', hlines⟩ := hbefore
  obtain ⟨j, hbreak⟩ := exists_breaksAt hnl hlines
  refine ⟨j, hbreak.token, hbreak.significant, ?_⟩
  have hcontent := hbreak.content hlines
  rw [Nat.zero_add] at hcontent
  rw [scan_lineStart _ (Nat.succ_pos j), hcontent, hscan]

end Stream

/-- A move to the start of a line with something to say. -/
theorem Cursor.moveTo_zero {source : Source} (c : Cursor) {j : Nat} (h : isSignificant (source.line j) = true)
    (newLine : Bool) :
    c.moveTo source ⟨j, 0⟩ newLine = { c with line := j, column := 0, crossed := newLine } :=
  moveTo_of_has (p := ⟨j, 0⟩) (lineLength_pos_of_isSignificant h) c newLine

namespace Stream

variable {source : Source} {before after : List Token} {nl : Token}

/-- A cursor that is moved back to a line break reads it and all that follows it again. -/
theorem scan_moveTo_newLine (c : Cursor) (hnl : nl.kind = .newLine)
    (h : (ofSource source).scan.tokens = before ++ nl :: after) :
    (ofCursor source (c.moveTo source nl.position true)).scan
      = ⟨nl :: after, (ofSource source).scan.error⟩ := by
  obtain ⟨j, rfl, hsignificant, hcontent⟩ := exists_content_of_newLine hnl h
  rw [Cursor.moveTo_zero c hsignificant, scan_ofCursor_of_isSignificant hsignificant rfl rfl, hcontent]
  rfl

/-! ### Back at an indentation -/

/-- The indentation of a line counts as blanks when it is read again. -/
theorem scanRest_line (source : Source) (j : Nat) :
    scanRest (source.isLast j) j 0 (source.line j) = scanBody source j := by
  have hsplit := List.take_append_drop (indentUnit.length * indentDepth (source.line j)) (source.line j)
  have hlength : ((source.line j).take (indentUnit.length * indentDepth (source.line j))).length
      = indentUnit.length * indentDepth (source.line j) := by
    rw [List.length_take, Nat.min_eq_left]
    exact Nat.le_trans (Nat.mul_div_le _ _) (List.takeWhile_prefix _).length_le
  calc scanRest (source.isLast j) j 0 (source.line j)
      = scanRest (source.isLast j) j 0
          ((source.line j).take (indentUnit.length * indentDepth (source.line j))
            ++ (source.line j).drop (indentUnit.length * indentDepth (source.line j))) := by rw [hsplit]
    _ = scanRest (source.isLast j) j (0 + _) _ := scanRest_blanks (all_isBlank_indentation _)
    _ = scanBody source j := by
        rw [hlength, Nat.zero_add]
        rfl

/-- A cursor that is moved back to the indentation of a line, while its flags are off, reads the first token
behind the indentation and all that follows it again. -/
theorem scan_moveTo_indentation (c : Cursor) {indent first : Token} {indents : List Token}
    (hnewLine : c.afterNewLine = false) (hindentation : c.afterIndentation = false)
    (hnl : nl.kind = .newLine) (hindents : ∀ t ∈ indent :: indents, t.kind = .indentation)
    (hfirst : first.kind ≠ .indentation)
    (h : (ofSource source).scan.tokens = before ++ nl :: (indent :: indents ++ first :: after)) :
    (ofCursor source (c.moveTo source indent.position false)).scan
      = ⟨first :: after, (ofSource source).scan.error⟩ := by
  obtain ⟨j, rfl, hsignificant, hcontent⟩ := exists_content_of_newLine hnl h
  obtain ⟨hindent, hbody⟩ :=
    scanContent_eq_append (newLine_of_mem_head_lineStart source j) hindents hfirst
      (congrArg Scan.tokens hcontent)
  have herror := congrArg Scan.error hcontent
  rw [scanContent_eq, Scan.append_assoc, Scan.append_of_error_none (scanIndents_error _ _ _)] at herror
  have hposition : indent.position = ⟨j, 0⟩ := by
    cases hdepth : indentDepth (source.line j) with
    | zero =>
        rw [hdepth] at hindent
        cases hindent
    | succ depth =>
        rw [hdepth] at hindent
        rw [(List.cons.inj hindent).1]
  rw [hposition, Cursor.moveTo_zero c hsignificant]
  have hcolumn := Cursor.lineLength_pos_of_isSignificant hsignificant
  rw [scan_ofCursor_rest (c := { c with line := j, column := 0, crossed := false }) hcolumn rfl
    (by simp [hnewLine, hindentation])]
  have hrest : Cursor.rest source { c with line := j, column := 0, crossed := false } = source.line j := rfl
  rw [hrest, scanRest_line, ← hbody, ← herror]

/-! ### Behind a line that was left -/

end Stream

/-- A move over characters that leaves a line. -/
theorem Cursor.eq_lineStart_of_advance {source : Source} {c : Cursor} {count : Nat}
    (hline : c.line < source.lines.length) (h : (c.inLine.advance source count).crossed = true) :
    c.inLine.advance source count = lineStart (c.line + 1) := by
  by_cases hlt : c.column + count < source.lineLength c.line
  · rw [advance_of_lt (c := c.inLine) hlt] at h
    cases h
  · exact advance_of_le (c := c.inLine) hline (Nat.le_of_not_lt hlt)

/-- A token that is no layout and ends its line leaves the cursor at the start of the next one. -/
theorem Cursor.exists_eq_lineStart {source : Source} {c after : Cursor} {t : Token}
    (h : c.next source = (.token t, after)) (ht : t.kind.isLayout = false) (hcrossed : after.crossed = true) :
    ∃ j, after = lineStart (j + 1) := by
  obtain ⟨c', -, hmore, hout⟩ := exists_handsOut h
  obtain ⟨-, count, -, rfl⟩ := hout.exists_advance ht
  exact ⟨c'.line, eq_lineStart_of_advance (line_lt_of_hasMore hmore) hcrossed⟩

theorem Cursor.flags_advance {source : Source} (c : Cursor) (count : Nat) :
    (c.inLine.advance source count).afterNewLine = false
      ∧ (c.inLine.advance source count).afterIndentation = false := by
  rw [advance, setColumn]
  split
  · exact ⟨rfl, rfl⟩
  · split <;> exact ⟨rfl, rfl⟩

/-- A token that is no layout switches the flags of the cursor off. -/
theorem Cursor.flags_of_next {source : Source} {c after : Cursor} {t : Token}
    (h : c.next source = (.token t, after)) (ht : t.kind.isLayout = false) :
    after.afterNewLine = false ∧ after.afterIndentation = false := by
  obtain ⟨c', -, -, hout⟩ := exists_handsOut h
  obtain ⟨-, count, -, rfl⟩ := hout.exists_advance ht
  exact flags_advance c' count

namespace Stream

variable {source : Source}

/-- What follows a token of a stream is read from the cursor behind it. -/
theorem exists_next_of_tokens_eq {c : Cursor} {before after : List Lexed} {t : Lexed}
    (h : (ofCursor source c).tokens = before ++ t :: after) :
    (∃ c' : Cursor, c'.next source = (.token t.token, t.after))
      ∧ after = (ofCursor source t.after).tokens := by
  induction before generalizing c with
  | nil =>
      rw [ofCursor] at h
      split at h
      · rename_i hnext
        cases h
        exact ⟨⟨c, hnext⟩, rfl⟩
      · cases h
      · cases h
  | cons t' before ih =>
      rw [ofCursor] at h
      split at h
      · exact ih (List.cons.inj h).2
      · cases h
      · cases h

/-- Where a token that is no layout has left its line, the next one is a line break. -/
theorem newLine_of_crossed {before after : List Lexed} {t next : Lexed}
    (h : (ofSource source).tokens = before ++ t :: next :: after) (ht : t.token.kind.isLayout = false)
    (hcrossed : t.after.crossed = true) : next.token.kind = .newLine := by
  obtain ⟨⟨c, hnext⟩, hafter⟩ := exists_next_of_tokens_eq h
  obtain ⟨j, hj⟩ := Cursor.exists_eq_lineStart hnext ht hcrossed
  have hhead := newLine_of_mem_head_lineStart source j next.token
  rw [← hj, scan, ← hafter] at hhead
  exact hhead rfl

end Stream

end PolishPseudocode
