import Mathlib.Data.List.Induction
import PolishPseudocode.Proofs.Token.Concatenation
import PolishPseudocode.Proofs.Token.Replay

/-! A cursor that goes back stands again where it stood. Behind a token that is no layout, the cursor is where the
token ends; behind a line break it has one flag more, and this flag is off in a text that starts clean. So the way
back to a line break, and to the first token of a line, leads to the same tokens with the same cursors. -/

namespace PolishPseudocode

namespace Cursor

variable {source : Source} {c after : Cursor} {t : Token}

/-- The cursor behind the lexeme at a place. -/
def behind (source : Source) (p : Position) : Cursor :=
  let c : Cursor := ⟨p.line, p.column, false, false, false⟩
  let rest := (source.line p.line).drop p.column
  if rest.head? = some '"' then c.advance source (((rest.drop 1).takeWhile (· != '"')).length + 2)
  else
    match Lexeme.recognise rest with
    | none => c
    | some found => c.advance source found.length

theorem behind_of_recognise (p : Position) {found : Lexeme.Found}
    (hquote : ¬ ((source.line p.line).drop p.column).head? = some '"')
    (hfound : Lexeme.recognise ((source.line p.line).drop p.column) = some found) :
    behind source p = (⟨p.line, p.column, false, false, false⟩ : Cursor).advance source found.length := by
  rw [behind, if_neg hquote, hfound]

theorem advance_inLine (h : c.line < source.lines.length) (count : Nat) :
    c.inLine.advance source count
      = (⟨c.line, c.column, false, false, false⟩ : Cursor).advance source count := by
  rw [advance, advance, setColumn, setColumn, if_neg (show ¬ source.lines.length ≤ c.inLine.line from Nat.not_le.2 h),
    if_neg (Nat.not_le.2 h)]
  rfl

/-- Behind a token that is no layout, the cursor is where the token ends. -/
theorem eq_behind_of_next (h : c.next source = (.token t, after)) (ht : t.kind.isLayout = false) :
    after = behind source t.position := by
  obtain ⟨c', -, hmore, hout⟩ := exists_handsOut h
  have hline := line_lt_of_hasMore hmore
  cases hout with
  | newLine => cases ht
  | indentation => cases ht
  | text hrest =>
      have hrest : (source.line c'.position.line).drop c'.position.column = _ := hrest
      rw [advance_inLine hline, behind, hrest]
      exact (if_pos rfl).symm
  | lexeme hquote hfound =>
      rw [advance_inLine hline]
      exact (behind_of_recognise c'.position hquote hfound).symm

/-- What is passed over switches the flag for indentation off, empty lines apart. -/
theorem Passes.afterIndentation {c' : Cursor} (h : Passes source c c') (hflag : c'.afterIndentation = true) :
    c.afterIndentation = true ∧ (c' = c ∨ source.line c.line = []) := by
  induction h with
  | refl c => exact ⟨hflag, .inl rfl⟩
  | @emptyLine c c' hmore hempty h ih =>
      have hadvance : (c.advance source 1).afterIndentation = c.afterIndentation := by
        rw [advance, setColumn]
        split
        · rfl
        · split <;> rfl
      exact ⟨hadvance ▸ (ih hflag).1, .inr hempty⟩
  | @lexeme c c' found hmore hfound hkind h ih =>
      have hfalse : (c.inLine.advance source found.length).afterIndentation = false := (flags_advance c _).2
      rw [(ih hflag).1] at hfalse
      cases hfalse

/-- A line break is handed out at a cursor that has left a line for one with something to say, and changes nothing but
two flags. The cursor that was asked for it either is that one up to empty lines, or has passed over something. -/
theorem exists_of_next_newLine (h : c.next source = (.token t, after)) (ht : t.kind = .newLine) :
    after = ⟨t.position.line, t.position.column, false, true, after.afterIndentation⟩
      ∧ isSignificant (source.line t.position.line) = true
      ∧ (after.afterIndentation = true →
        c.afterIndentation = true ∧ (c.crossed = true ∨ source.line c.line = [])) := by
  obtain ⟨c', hpasses, -, hout⟩ := exists_handsOut h
  cases hout with
  | newLine hcrossed hsignificant =>
      refine ⟨rfl, hsignificant, fun hflag => ?_⟩
      obtain ⟨hindentation, hsame⟩ := hpasses.afterIndentation hflag
      refine ⟨hindentation, hsame.imp_left ?_⟩
      rintro rfl
      exact hcrossed
  | indentation => cases ht
  | text => cases ht
  | lexeme hquote hfound hkind =>
      cases (Lexeme.isLayout_of_recognise hfound hkind).symm.trans (congrArg Token.Kind.isLayout ht)

/-- Behind an indentation that is not the end of its line, the cursor is on that line. -/
theorem crossed_of_next_indentation (h : c.next source = (.token t, after)) (ht : t.kind = .indentation)
    (hlength : t.position.column + indentUnit.length < source.lineLength t.position.line) :
    after.crossed = false ∧ source.line after.line ≠ [] := by
  obtain ⟨c', -, -, hout⟩ := exists_handsOut h
  cases hout with
  | newLine => cases ht
  | indentation =>
      rw [advance_of_lt hlength]
      refine ⟨rfl, fun hnil => ?_⟩
      have hnil : source.line c'.line = [] := hnil
      rw [Source.lineLength, position, hnil] at hlength
      exact Nat.not_lt_zero _ hlength
  | text => cases ht
  | lexeme hquote hfound hkind =>
      cases (Lexeme.isLayout_of_recognise hfound hkind).symm.trans (congrArg Token.Kind.isLayout ht)

end Cursor

namespace Stream

variable {source : Source}

/-- A token is pulled by the cursor behind the token before it. -/
theorem next_of_tokens_eq {c : Cursor} {before after : List Lexed} {t : Lexed}
    (h : (ofCursor source c).tokens = before ++ t :: after) :
    ((before.getLast?.map Lexed.after).getD c).next source = (.token t.token, t.after) := by
  induction before generalizing c with
  | nil =>
      rw [ofCursor] at h
      split at h
      · rename_i hnext
        cases h
        exact hnext
      · cases h
      · cases h
  | cons first before ih =>
      rw [ofCursor] at h
      split at h
      · obtain ⟨rfl, hrest⟩ := List.cons.inj h
        have hnext := ih hrest
        cases before with
        | nil => exact hnext
        | cons second before => exact hnext
      · cases h
      · cases h

theorem mem_scanLine_of_mem_scanLines {count i : Nat} {t : Token} (h : t ∈ (scanLines source count i).tokens) :
    t ∈ (scanLine source t.position.line).tokens := by
  induction count generalizing i with
  | zero => cases h
  | succ count ih =>
      rw [scanLines] at h
      rcases Scan.mem_append h with h | h
      · rwa [position_of_mem_scanLine h]
      · exact ih h

theorem column_of_mem_scanIndents {line column count : Nat} {t : Token}
    (h : t ∈ (scanIndents line column count).tokens) :
    t.position.column + indentUnit.length ≤ column + indentUnit.length * count := by
  induction count generalizing column with
  | zero => cases h
  | succ count ih =>
      rw [Nat.mul_succ]
      rcases List.mem_cons.1 h with rfl | h
      · dsimp only
        omega
      · have hle := ih h
        omega

/-- In a line that says something, an indentation is not the end of the line. -/
theorem lt_of_mem_scanLine {i : Nat} {t : Token} (h : t ∈ (scanLine source i).tokens) (ht : t.kind = .indentation) :
    t.position.column + indentUnit.length < source.lineLength i := by
  rw [scanLine] at h
  split at h
  · rename_i hsignificant
    have hcontent : t ∈ (scanContent source i).tokens := by
      split at h
      · exact h
      · rcases List.mem_cons.1 h with rfl | h
        · cases ht
        · exact h
    rw [scanContent_eq] at hcontent
    rcases Scan.mem_append hcontent with hindents | hbody
    · have hle := column_of_mem_scanIndents hindents
      have hlt : indentUnit.length * indentDepth (source.line i) < (source.line i).length := by
        by_contra hge
        have hblank := all_isBlank_indentation (source.line i)
        rw [List.take_of_length_le (Nat.le_of_not_lt hge)] at hblank
        rw [isSignificant, hblank] at hsignificant
        cases hsignificant
      change _ < (source.line i).length
      omega
    · have hlayout := (position_of_mem_scanBody hbody).1
      rw [ht] at hlayout
      cases hlayout
  · cases h

/-- In a text that starts clean, no line break follows the indentation of a line with nothing else in it. -/
theorem afterIndentation_of_newLine {before after : List Lexed} {nl : Lexed} (hclean : startsClean source.lines = true)
    (h : (ofSource source).tokens = before ++ nl :: after) (hnl : nl.token.kind = .newLine) :
    nl.after.afterIndentation = false := by
  induction before using List.reverseRecOn generalizing nl after with
  | nil =>
      rw [Bool.eq_false_iff]
      intro hflag
      cases ((Cursor.exists_of_next_newLine (next_of_tokens_eq h) hnl).2.2 hflag).1
  | append_singleton before last ih =>
      have hnext := next_of_tokens_eq h
      rw [List.getLast?_concat] at hnext
      rw [List.append_assoc] at h
      rw [Bool.eq_false_iff]
      intro hflag
      obtain ⟨hlast, hleft⟩ := (Cursor.exists_of_next_newLine hnext hnl).2.2 hflag
      have hlast : last.after.afterIndentation = true := hlast
      cases hkind : last.token.kind.isLayout with
      | false =>
          obtain ⟨⟨c, hc⟩, -⟩ := exists_next_of_tokens_eq h
          rw [(Cursor.flags_of_next hc hkind).2] at hlast
          cases hlast
      | true =>
          cases hlayout : last.token.kind with
          | newLine =>
              rw [ih h hlayout] at hlast
              cases hlast
          | indentation =>
              -- The line of the indentation goes on, so the cursor cannot have left it.
              have hscan : last.token ∈ (scanLines source source.lines.length 0).tokens := by
                rw [← scan_ofSource_of_startsClean hclean, scan, h, List.map_append]
                exact List.mem_append_right _ List.mem_cons_self
              have hlength := lt_of_mem_scanLine (mem_scanLine_of_mem_scanLines hscan) hlayout
              obtain ⟨⟨c, hc⟩, -⟩ := exists_next_of_tokens_eq h
              obtain ⟨hcrossed, hline⟩ := Cursor.crossed_of_next_indentation hc hlayout hlength
              rcases hleft with hleft | hleft
              · cases hcrossed.symm.trans hleft
              · exact hline hleft
          | _ =>
              rw [hlayout] at hkind
              cases hkind

/-- In a text that starts clean, only indentation leaves the flag for indentation on. -/
theorem afterIndentation_of_kind {before after : List Lexed} {t : Lexed} (hclean : startsClean source.lines = true)
    (h : (ofSource source).tokens = before ++ t :: after) (ht : t.token.kind ≠ .indentation) :
    t.after.afterIndentation = false := by
  by_cases hnl : t.token.kind = .newLine
  · exact afterIndentation_of_newLine hclean h hnl
  · obtain ⟨⟨c, hc⟩, -⟩ := exists_next_of_tokens_eq h
    have hlayout : t.token.kind.isLayout = false := by
      cases hkind : t.token.kind with
      | newLine => exact absurd hkind hnl
      | indentation => exact absurd hkind ht
      | _ => rfl
    exact (Cursor.flags_of_next hc hlayout).2

/-- In a text that starts clean, a line break stands between the lines before and the lines from it on. -/
theorem line_of_newLine {before after : List Lexed} {nl : Lexed} (hclean : startsClean source.lines = true)
    (h : (ofSource source).tokens = before ++ nl :: after) (hnl : nl.token.kind = .newLine) :
    (∀ t ∈ before, t.token.position.line < nl.token.position.line)
      ∧ ∀ t ∈ after, nl.token.position.line ≤ t.token.position.line := by
  have hscan : (scanLines source source.lines.length 0).tokens
      = before.map Lexed.token ++ nl.token :: after.map Lexed.token := by
    rw [← scan_ofSource_of_startsClean hclean, scan, h, List.map_append]
    rfl
  obtain ⟨j, hbreak⟩ := exists_breaksAt hnl hscan
  rw [hbreak.token]
  constructor
  · intro t ht
    exact hbreak.earlier t.token (List.mem_map_of_mem ht)
  · intro t ht
    have hmem : t.token ∈ after.map Lexed.token := List.mem_map_of_mem ht
    have hcontent := congrArg Scan.tokens (hbreak.content hscan)
    dsimp only at hcontent
    rw [← hcontent] at hmem
    rcases Scan.mem_append hmem with hmem | hmem
    · exact Nat.le_of_eq (of_mem_scanContent hmem).2.symm
    · exact Nat.le_of_succ_le (line_of_mem_scanLines hmem).1

/-! ### Going back -/

theorem ofCursor_of_next {c after : Cursor} {t : Token} (h : c.next source = (.token t, after)) :
    ofCursor source c = ⟨⟨t, after⟩ :: (ofCursor source after).tokens, (ofCursor source after).ending⟩ := by
  rw [ofCursor]
  split
  · rename_i hnext
    cases hnext.symm.trans h
    rfl
  · rename_i hnext
    cases hnext.symm.trans h
  · rename_i hnext
    cases hnext.symm.trans h

/-- Behind a token, the stream goes on to its end. -/
theorem ofCursor_after {c : Cursor} {before after : List Lexed} {t : Lexed}
    (h : (ofCursor source c).tokens = before ++ t :: after) :
    ofCursor source t.after = ⟨after, (ofCursor source c).ending⟩ := by
  induction before generalizing c with
  | nil =>
      have hnext : c.next source = _ := next_of_tokens_eq h
      rw [ofCursor_of_next hnext] at h ⊢
      rw [← (List.cons.inj h).2]
  | cons first before ih =>
      have hfirst : (ofCursor source c).tokens = [] ++ first :: (before ++ t :: after) := h
      have hnext : c.next source = _ := next_of_tokens_eq hfirst
      rw [ofCursor_of_next hnext] at h ⊢
      exact ih (List.cons.inj h).2

/-- Back at a line break, from behind a later token, the tokens from the line break on are read again. -/
theorem ofCursor_moveTo_newLine (hclean : startsClean source.lines = true) {before after : List Lexed} {nl t : Lexed}
    (h : (ofSource source).tokens = before ++ nl :: after) (hnl : nl.token.kind = .newLine)
    (ht : t.after.afterIndentation = false) :
    ofCursor source (t.after.moveTo source nl.token.position true) = ⟨nl :: after, (ofSource source).ending⟩ := by
  have hscan : (ofSource source).scan.tokens = before.map Lexed.token ++ nl.token :: after.map Lexed.token := by
    rw [scan, h, List.map_append]
    rfl
  obtain ⟨j, htoken, hsignificant, -⟩ := exists_content_of_newLine hnl hscan
  have hafter : nl.after = ⟨j, 0, false, true, false⟩ := by
    have hstands := (Cursor.exists_of_next_newLine (next_of_tokens_eq h) hnl).1
    rw [afterIndentation_of_newLine hclean h hnl, htoken] at hstands
    exact hstands
  have hnext : (⟨j, 0, true, t.after.afterNewLine, t.after.afterIndentation⟩ : Cursor).next source
      = (.token nl.token, nl.after) := by
    rw [Cursor.next_of_isSignificant rfl hsignificant, htoken, hafter, ht]
    rfl
  rw [htoken, Cursor.moveTo_zero t.after hsignificant, ofCursor_of_next hnext, ofCursor_after h]
  rfl

/-- Back at the first indentation of a line, from behind the first token after the indentation, that token is read
again. -/
theorem ofCursor_moveTo_indentation {before after indents : List Lexed} {nl indent first : Lexed}
    (h : (ofSource source).tokens = before ++ nl :: indent :: (indents ++ first :: after))
    (hnl : nl.token.kind = .newLine) (hindents : ∀ t ∈ indent :: indents, t.token.kind = .indentation)
    (hfirst : first.token.kind.isLayout = false) :
    ofCursor source (first.after.moveTo source indent.token.position false)
      = ⟨first :: after, (ofSource source).ending⟩ := by
  have hscan : (ofSource source).scan.tokens = before.map Lexed.token ++ nl.token
      :: (indent.token :: indents.map Lexed.token ++ first.token :: after.map Lexed.token) := by
    rw [scan, h, List.map_append, List.map_cons, List.map_cons, List.map_append]
    rfl
  have hsplit : (ofSource source).tokens = (before ++ nl :: indent :: indents) ++ first :: after := by
    rw [h, List.append_assoc]
    rfl
  obtain ⟨⟨c, hc⟩, -⟩ := exists_next_of_tokens_eq hsplit
  obtain ⟨hnewLine, hindentation⟩ := Cursor.flags_of_next hc hfirst
  have hkinds : ∀ t ∈ indent.token :: indents.map Lexed.token, t.kind = .indentation := by
    rw [← List.map_cons, List.forall_mem_map]
    exact hindents
  have hlayout : first.token.kind ≠ .indentation := by
    intro hkind
    rw [hkind] at hfirst
    cases hfirst
  have hback := scan_moveTo_indentation first.after hnewLine hindentation hnl hkinds hlayout hscan
  generalize first.after.moveTo source indent.token.position false = back at hback ⊢
  obtain ⟨first', rest, htokens, htoken, -⟩ := List.map_eq_cons_iff.1 (congrArg Scan.tokens hback)
  have htokens : (ofCursor source back).tokens = [] ++ first' :: rest := htokens
  have hnext : back.next source = (.token first'.token, first'.after) := next_of_tokens_eq htokens
  rw [htoken] at hnext
  rw [Cursor.eq_behind_of_next hnext hfirst, ← Cursor.eq_behind_of_next hc hfirst] at hnext
  rw [ofCursor_of_next hnext, ofCursor_after hsplit]
  rfl

end Stream

end PolishPseudocode
