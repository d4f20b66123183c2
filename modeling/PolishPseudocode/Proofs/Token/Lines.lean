import PolishPseudocode.Proofs.Token.Lexeme
import PolishPseudocode.Token.Stream
import Mathlib.Data.List.TakeWhile
import Mathlib.Tactic.ByContra

/-! The tokens of a source, line by line. What a cursor hands out on a line depends on that line alone: a
line break and the indentation if the line is significant, and then the lexemes in the order of their
columns. Only on blank lines at the very start of a text can there be an indentation more. -/

namespace PolishPseudocode

/-- The tokens of a piece of text, and the error at which they end, if they do. -/
structure Scan where
  tokens : List Token
  error : Option SyntaxError

namespace Scan

def nil : Scan :=
  ⟨[], none⟩

def cons (t : Token) (s : Scan) : Scan :=
  { s with tokens := t :: s.tokens }

/-- One piece behind the other; an error ends both. -/
def append (s s' : Scan) : Scan :=
  match s.error with
  | none => ⟨s.tokens ++ s'.tokens, s'.error⟩
  | some _ => s

instance : Append Scan :=
  ⟨append⟩

@[simp] theorem nil_append (s : Scan) : nil ++ s = s :=
  rfl

@[simp] theorem cons_append (t : Token) (s s' : Scan) : s.cons t ++ s' = (s ++ s').cons t := by
  change append _ _ = cons t (append _ _)
  obtain ⟨tokens, error⟩ := s
  cases error <;> rfl

@[simp] theorem append_nil (s : Scan) : s ++ nil = s := by
  change append _ _ = s
  obtain ⟨tokens, error⟩ := s
  cases error <;> simp [append, nil]

theorem append_assoc (s s' s'' : Scan) : s ++ s' ++ s'' = s ++ (s' ++ s'') := by
  change append (append _ _) _ = append _ (append _ _)
  obtain ⟨tokens, error⟩ := s
  obtain ⟨tokens', error'⟩ := s'
  cases error <;> cases error' <;> simp [append]

theorem append_of_error {s s' : Scan} {e : SyntaxError} (h : s.error = some e) : s ++ s' = s := by
  change append _ _ = _
  simp [append, h]

theorem append_of_error_none {s s' : Scan} (h : s.error = none) :
    s ++ s' = ⟨s.tokens ++ s'.tokens, s'.error⟩ := by
  change append _ _ = _
  simp [append, h]

theorem tokens_append {s s' : Scan} (h : s.error = none) : (s ++ s').tokens = s.tokens ++ s'.tokens := by
  rw [append_of_error_none h]

theorem error_append {s s' : Scan} (h : (s ++ s').error = none) : s.error = none ∧ s'.error = none := by
  change (append s s').error = none at h
  obtain ⟨tokens, error⟩ := s
  cases error with
  | none => exact ⟨rfl, h⟩
  | some e => cases h

end Scan

/-- The tokens of a stream without the cursors, and its error. -/
def Stream.scan (stream : Stream) : Scan where
  tokens := stream.tokens.map Lexed.token
  error := match stream.ending with
    | .finished _ => none
    | .failed e => some e

/-! ### One line -/

/-- The tokens in the rest of a line, which starts at a column. `last` says that no line follows. -/
def scanRest (last : Bool) (line column : Nat) (rest : List Char) : Scan :=
  if rest.isEmpty then .nil
  else if rest.head? = some '"' then
    let content := (rest.drop 1).takeWhile (· != '"')
    if content.length < (rest.drop 1).length then
      (scanRest last line (column + (content.length + 2)) (rest.drop (content.length + 2))).cons
        ⟨.text (String.ofList content), ⟨line, column⟩⟩
    else ⟨[], some ⟨.unterminatedText last, ⟨line, column + rest.length⟩⟩⟩
  else
    match Lexeme.recognise rest with
    | none => ⟨[], some ⟨.unknownToken (String.ofList rest), ⟨line, column⟩⟩⟩
    | some found =>
        match found.lexeme with
        | .token kind =>
            (scanRest last line (column + found.length) (rest.drop found.length)).cons
              ⟨kind, ⟨line, column⟩⟩
        | _ => scanRest last line (column + found.length) (rest.drop found.length)
termination_by rest.length
decreasing_by
  all_goals
    have hne : 0 < rest.length := by
      cases rest <;> simp_all
    rw [List.length_drop]
  · omega
  · have := found.length_pos
    omega
  · have := found.length_pos
    omega

@[simp] theorem scanRest_nil (last : Bool) (line column : Nat) : scanRest last line column [] = .nil := by
  simp [scanRest]

/-- How deep a line is indented: one level for every four blanks it starts with. -/
def indentDepth (rest : List Char) : Nat :=
  (rest.takeWhile (· == ' ')).length / indentUnit.length

/-- As many indentations, one behind the other. -/
def scanIndents (line column : Nat) : Nat → Scan
  | 0 => .nil
  | count + 1 => (scanIndents line (column + indentUnit.length) count).cons ⟨.indentation, ⟨line, column⟩⟩

/-- The tokens in the rest of a line of which only indentation was read so far. -/
def scanIndented (last : Bool) (line column : Nat) (rest : List Char) : Scan :=
  let width := indentUnit.length * indentDepth rest
  scanIndents line column (indentDepth rest) ++ scanRest last line (column + width) (rest.drop width)

/-- Whether no line follows. -/
def Source.isLast (source : Source) (i : Nat) : Bool :=
  decide (source.lines.length ≤ i + 1)

/-- The tokens of a line behind its line break. -/
def scanContent (source : Source) (i : Nat) : Scan :=
  scanIndented (source.isLast i) i 0 (source.line i)

/-- The tokens of a line behind its indentation. -/
def scanBody (source : Source) (i : Nat) : Scan :=
  let width := indentUnit.length * indentDepth (source.line i)
  scanRest (source.isLast i) i width ((source.line i).drop width)

theorem scanContent_eq (source : Source) (i : Nat) :
    scanContent source i = scanIndents i 0 (indentDepth (source.line i)) ++ scanBody source i := by
  rw [scanContent, scanIndented, Nat.zero_add]
  rfl

/-- The tokens of a line. The first line of a text follows no line break. -/
def scanLine (source : Source) (i : Nat) : Scan :=
  if isSignificant (source.line i) then
    if i = 0 then scanContent source i else (scanContent source i).cons ⟨.newLine, ⟨i, 0⟩⟩
  else .nil

/-- The tokens of a number of lines that follow each other. -/
def scanLines (source : Source) : Nat → Nat → Scan
  | 0, _ => .nil
  | count + 1, i => scanLine source i ++ scanLines source count (i + 1)

/-! ### One pull -/

/-- The start of a line that is reached from the line before. -/
def lineStart (i : Nat) : Cursor :=
  ⟨i, 0, true, false, false⟩

namespace Stream

variable {source : Source} {c c' after : Cursor}

theorem scan_ofCursor_token {t : Token} (h : c.next source = (.token t, after)) :
    (ofCursor source c).scan = (ofCursor source after).scan.cons t := by
  rw [ofCursor]
  split
  · rename_i t' after' h'
    cases h.symm.trans h'
    rfl
  · rename_i h'
    cases h.symm.trans h'
  · rename_i h'
    cases h.symm.trans h'

theorem scan_ofCursor_finished (h : c.next source = (.finished, after)) :
    (ofCursor source c).scan = .nil := by
  rw [ofCursor]
  split
  · rename_i h'
    cases h.symm.trans h'
  · rfl
  · rename_i h'
    cases h.symm.trans h'

theorem scan_ofCursor_failed {e : SyntaxError} (h : c.next source = (.failed e, after)) :
    (ofCursor source c).scan = ⟨[], some e⟩ := by
  rw [ofCursor]
  split
  · rename_i h'
    cases h.symm.trans h'
  · rename_i h'
    cases h.symm.trans h'
  · rename_i h'
    cases h.symm.trans h'
    rfl

/-- Where the next pull is the same, all tokens are. -/
theorem scan_ofCursor_congr (h : c.next source = c'.next source) :
    (ofCursor source c).scan = (ofCursor source c').scan := by
  cases hnext : c'.next source with
  | mk pull after =>
      rw [hnext] at h
      cases pull with
      | token t => rw [scan_ofCursor_token h, scan_ofCursor_token hnext]
      | finished => rw [scan_ofCursor_finished h, scan_ofCursor_finished hnext]
      | failed e => rw [scan_ofCursor_failed h, scan_ofCursor_failed hnext]

end Stream

namespace Cursor

variable {source : Source} {c : Cursor}

theorem hasMore_of_column_lt (h : c.column < source.lineLength c.line) : c.hasMore source = true := by
  have hline : c.line < source.lines.length := by
    by_contra hle
    simp [Source.lineLength, Source.line, List.getElem?_eq_none (Nat.le_of_not_lt hle)] at h
  have hempty : source.isEmpty = false := by
    rw [Source.isEmpty, beq_eq_false_iff_ne]
    intro hlines
    rw [Source.lineLength, Source.line, hlines] at h
    cases hc : c.line with
    | zero => simp [hc] at h
    | succ i => simp [hc] at h
  simp [hasMore, hline, hempty]

theorem rest_ne_nil (h : c.column < source.lineLength c.line) : c.rest source ≠ [] := by
  rw [rest, ne_eq, List.drop_eq_nil_iff]
  exact Nat.not_le_of_lt h

theorem advance_of_lt {count : Nat} (h : c.column + count < source.lineLength c.line) :
    c.advance source count = { c with column := c.column + count, crossed := false } := by
  have hline : c.line < source.lines.length := line_lt_of_hasMore (hasMore_of_column_lt (c := c) (by omega))
  rw [advance, setColumn, if_neg (by omega), if_neg (by omega)]

theorem advance_of_le {count : Nat} (hline : c.line < source.lines.length)
    (h : source.lineLength c.line ≤ c.column + count) :
    c.advance source count = { c with line := c.line + 1, column := 0, crossed := true } := by
  rw [advance, setColumn, if_neg (by omega), if_pos h]

/-- A pull inside a line, at no indentation. -/
theorem next_of_column_lt (h : c.column < source.lineLength c.line)
    (hbreak : (c.crossed && isSignificant (source.line c.line)) = false)
    (hindent : ((c.afterNewLine || c.afterIndentation) && indentUnit.isPrefixOf (c.rest source)) = false) :
    c.next source =
      if (c.rest source).head? = some '"' then c.inLine.readText source ((c.rest source).drop 1)
      else
        match Lexeme.recognise (c.rest source) with
        | none => (.failed ⟨.unknownToken (String.ofList (c.rest source)), c.position⟩, c.inLine)
        | some found =>
            match found.lexeme with
            | .token kind => (.token ⟨kind, c.position⟩, c.inLine.advance source found.length)
            | _ => next source (c.inLine.advance source found.length) := by
  have hempty : ¬ (source.line c.line).isEmpty = true := by
    intro hnil
    rw [Source.lineLength, List.isEmpty_iff.1 hnil] at h
    exact Nat.not_lt_zero _ h
  rw [next, dif_pos (hasMore_of_column_lt h)]
  refine (if_neg ?_).trans ((if_neg hempty).trans (if_neg ?_))
  · rw [hbreak]
    exact Bool.false_ne_true
  · rw [hindent]
    exact Bool.false_ne_true

end Cursor

/-! ### The rest of a line -/

namespace Stream

variable {source : Source}

/-- The tokens from a place inside a line, or from the line behind if the place is not inside it. -/
def scanFrom (source : Source) (i column : Nat) : Scan :=
  if column < source.lineLength i then (ofCursor source ⟨i, column, false, false, false⟩).scan
  else (ofCursor source (lineStart (i + 1))).scan

/-- A move from a cursor inside a line whose flags are off. -/
theorem scan_advance {c : Cursor} (hline : c.line < source.lines.length) (count : Nat) :
    (ofCursor source (c.inLine.advance source count)).scan
      = scanFrom source c.line (c.column + count) := by
  unfold scanFrom
  split
  · rename_i h
    rw [Cursor.advance_of_lt (c := c.inLine) h]
    rfl
  · rename_i h
    rw [Cursor.advance_of_le (c := c.inLine) hline (Nat.le_of_not_lt h)]
    rfl

/-- The rest of a line gives its lexemes, and then the line behind follows. -/
theorem scan_ofCursor_rest {c : Cursor} (h : c.column < source.lineLength c.line)
    (hbreak : (c.crossed && isSignificant (source.line c.line)) = false)
    (hindent : ((c.afterNewLine || c.afterIndentation) && indentUnit.isPrefixOf (c.rest source)) = false) :
    (ofCursor source c).scan
      = scanRest (source.isLast c.line) c.line c.column (c.rest source)
        ++ (ofCursor source (lineStart (c.line + 1))).scan := by
  have hline := Cursor.line_lt_of_hasMore (Cursor.hasMore_of_column_lt h)
  have hlength : (c.rest source).length = source.lineLength c.line - c.column := by
    rw [Cursor.rest, List.length_drop]
    rfl
  have hnil : ¬ (c.rest source).isEmpty = true := by
    simpa using Cursor.rest_ne_nil h
  -- Behind what is read next, the rest is shorter: it is scanned alike, or it is used up.
  have hstep (count : Nat) (hcount : 0 < count) : scanFrom source c.line (c.column + count)
      = scanRest (source.isLast c.line) c.line (c.column + count) ((c.rest source).drop count)
        ++ (ofCursor source (lineStart (c.line + 1))).scan := by
    unfold scanFrom
    split
    · rename_i hlt
      have := scan_ofCursor_rest (c := ⟨c.line, c.column + count, false, false, false⟩) hlt rfl rfl
      rw [this]
      simp only [Cursor.rest, List.drop_drop]
    · have hdrop : (c.rest source).drop count = [] := by
        rw [List.drop_eq_nil_iff]
        omega
      rw [hdrop, scanRest_nil, Scan.nil_append]
  have hnext := Cursor.next_of_column_lt h hbreak hindent
  rw [scanRest, if_neg hnil]
  split
  · rename_i hquote
    rw [if_pos hquote, Cursor.readText] at hnext
    dsimp only at hnext ⊢
    split
    · rename_i hclosed
      rw [if_pos hclosed] at hnext
      rw [scan_ofCursor_token hnext, scan_advance hline, hstep _ (by omega), Scan.cons_append]
      rfl
    · rename_i hopen
      rw [if_neg hopen] at hnext
      rw [scan_ofCursor_failed hnext]
      have hend : source.lineLength c.line = c.column + (c.rest source).length := by omega
      simp only [Cursor.position, Cursor.inLine, hend]
      rfl
  · rename_i hquote
    rw [if_neg hquote] at hnext
    split
    · rename_i hnone
      rw [hnone] at hnext
      rw [scan_ofCursor_failed hnext]
      rfl
    · rename_i found hfound
      rw [hfound] at hnext
      have hpos := found.length_pos
      dsimp only at hnext
      split
      · rename_i kind hkind
        rw [hkind] at hnext
        rw [scan_ofCursor_token hnext, scan_advance hline, hstep _ hpos, Scan.cons_append]
        rfl
      · rename_i hkind
        have hskip : c.next source = (c.inLine.advance source found.length).next source := by
          rw [hnext]
          split
          · exact absurd ‹_› (hkind _)
          · rfl
        rw [scan_ofCursor_congr hskip, scan_advance hline, hstep _ hpos]
termination_by source.lineLength c.line - c.column
decreasing_by omega

end Stream

/-! ### Indentation -/

/-- Four blanks are one level more than what follows them. -/
theorem indentDepth_of_isPrefixOf {rest : List Char} (h : indentUnit.isPrefixOf rest = true) :
    indentDepth rest = indentDepth (rest.drop indentUnit.length) + 1 := by
  obtain ⟨behind, rfl⟩ := List.isPrefixOf_iff_prefix.1 h
  simp [indentDepth, indentUnit]
  omega

/-- Without four blanks in front there is no level. -/
theorem indentDepth_of_not_isPrefixOf {rest : List Char} (h : indentUnit.isPrefixOf rest = false) :
    indentDepth rest = 0 := by
  refine Nat.div_eq_of_lt ?_
  by_contra hlong
  refine absurd h ?_
  rw [Bool.not_eq_false, List.isPrefixOf_iff_prefix]
  -- Four characters that are blanks are the first four of the rest.
  have hblanks : rest.takeWhile (· == ' ') = List.replicate (rest.takeWhile (· == ' ')).length ' ' :=
    List.eq_replicate_iff.2 ⟨rfl, fun c hc => by simpa using List.mem_takeWhile_imp hc⟩
  have hunit : indentUnit = List.replicate indentUnit.length ' ' := rfl
  refine List.IsPrefix.trans ?_ (List.takeWhile_prefix (· == ' '))
  refine ⟨List.replicate ((rest.takeWhile (· == ' ')).length - indentUnit.length) ' ', ?_⟩
  rw [hblanks, hunit, List.replicate_append_replicate]
  simp only [List.length_replicate]
  congr 1
  omega

theorem scanIndented_of_isPrefixOf {last : Bool} {line column : Nat} {rest : List Char}
    (h : indentUnit.isPrefixOf rest = true) :
    scanIndented last line column rest
      = (scanIndented last line (column + indentUnit.length) (rest.drop indentUnit.length)).cons
        ⟨.indentation, ⟨line, column⟩⟩ := by
  have hwidth : indentUnit.length * indentDepth rest
      = indentUnit.length + indentUnit.length * indentDepth (rest.drop indentUnit.length) := by
    rw [indentDepth_of_isPrefixOf h, Nat.mul_succ, Nat.add_comm]
  rw [scanIndented, scanIndented]
  simp only [hwidth, List.drop_drop, Nat.add_assoc]
  rw [indentDepth_of_isPrefixOf h, scanIndents, Scan.cons_append]

namespace Cursor

variable {source : Source} {c : Cursor}

/-- A pull at an indentation. -/
theorem next_of_indentation (h : c.column < source.lineLength c.line)
    (hbreak : (c.crossed && isSignificant (source.line c.line)) = false)
    (hindent : ((c.afterNewLine || c.afterIndentation) && indentUnit.isPrefixOf (c.rest source)) = true) :
    c.next source = (.token ⟨.indentation, c.position⟩,
      { c.advance source indentUnit.length with afterNewLine := false, afterIndentation := true }) := by
  have hempty : ¬ (source.line c.line).isEmpty = true := by
    intro hnil
    rw [Source.lineLength, List.isEmpty_iff.1 hnil] at h
    exact Nat.not_lt_zero _ h
  rw [next, dif_pos (hasMore_of_column_lt h)]
  simp only [hbreak, hindent, if_neg hempty, Bool.false_eq_true, if_false, if_true]

/-- A significant line has characters. -/
theorem lineLength_pos_of_isSignificant {i : Nat} (h : isSignificant (source.line i) = true) :
    0 < source.lineLength i := by
  rw [Source.lineLength]
  cases hline : source.line i with
  | nil => simp [hline, isSignificant] at h
  | cons c line => simp

theorem hasMore_of_isSignificant (h : isSignificant (source.line c.line) = true) :
    c.hasMore source = true :=
  -- Whether there is more does not depend on the column.
  hasMore_of_column_lt (c := { c with column := 0 }) (lineLength_pos_of_isSignificant h)

/-- A pull at the start of a significant line. -/
theorem next_of_isSignificant (hcrossed : c.crossed = true)
    (h : isSignificant (source.line c.line) = true) :
    c.next source
      = (.token ⟨.newLine, c.position⟩, { c with crossed := false, afterNewLine := true }) := by
  rw [next, dif_pos (hasMore_of_isSignificant h)]
  simp only [hcrossed, h, Bool.and_self, if_true]

end Cursor

namespace Stream

variable {source : Source}

/-- Where only indentation was read so far, and something else is ahead, the indentation that is left is
read first. -/
theorem scan_ofCursor_indented {c : Cursor} (h : (c.rest source).all isBlank = false)
    (hcrossed : c.crossed = false) (hflag : (c.afterNewLine || c.afterIndentation) = true) :
    (ofCursor source c).scan
      = scanIndented (source.isLast c.line) c.line c.column (c.rest source)
        ++ (ofCursor source (lineStart (c.line + 1))).scan := by
  have hcolumn : c.column < source.lineLength c.line := by
    by_contra hle
    rw [Cursor.rest, List.drop_eq_nil_iff.2 (Nat.le_of_not_lt hle)] at h
    exact absurd h (by simp)
  have hbreak : (c.crossed && isSignificant (source.line c.line)) = false := by
    rw [hcrossed, Bool.false_and]
  cases hunit : indentUnit.isPrefixOf (c.rest source) with
  | false =>
      rw [scan_ofCursor_rest hcolumn hbreak (by rw [hunit, Bool.and_false]), scanIndented,
        indentDepth_of_not_isPrefixOf hunit]
      rfl
  | true =>
      have hmoved : ((c.rest source).drop indentUnit.length).all isBlank = false := by
        obtain ⟨behind, hrest⟩ := List.isPrefixOf_iff_prefix.1 hunit
        rw [← hrest, List.all_append, show indentUnit.all isBlank = true by decide, Bool.true_and] at h
        rw [← hrest, List.drop_left]
        exact h
      have hrest : (Cursor.rest source ⟨c.line, c.column + indentUnit.length, false, false, true⟩)
          = (c.rest source).drop indentUnit.length := by
        rw [Cursor.rest, Cursor.rest, List.drop_drop]
      have hlt : c.column + indentUnit.length < source.lineLength c.line := by
        by_contra hle
        rw [← hrest, Cursor.rest, List.drop_eq_nil_iff.2 (Nat.le_of_not_lt hle)] at hmoved
        exact absurd hmoved (by simp)
      have hnext := Cursor.next_of_indentation hcolumn hbreak (by rw [hflag, hunit, Bool.and_self])
      rw [Cursor.advance_of_lt hlt] at hnext
      have ih := scan_ofCursor_indented (c := ⟨c.line, c.column + indentUnit.length, false, false, true⟩)
        (by rw [hrest]; exact hmoved) rfl rfl
      rw [scan_ofCursor_token hnext]
      refine (congrArg (Scan.cons _) ih).trans ?_
      rw [hrest, scanIndented_of_isPrefixOf hunit, Scan.cons_append]
      rfl
termination_by source.lineLength c.line - c.column
decreasing_by
  simp only [indentUnit, List.length_cons, List.length_nil]
  omega

/-- A significant line that is entered gives a line break and its tokens, whatever was read before. -/
theorem scan_ofCursor_of_isSignificant {c : Cursor} (h : isSignificant (source.line c.line) = true)
    (hcrossed : c.crossed = true) (hcolumn : c.column = 0) :
    (ofCursor source c).scan
      = (scanContent source c.line ++ (ofCursor source (lineStart (c.line + 1))).scan).cons
        ⟨.newLine, ⟨c.line, 0⟩⟩ := by
  have hnext := Cursor.next_of_isSignificant hcrossed h
  rw [scan_ofCursor_token hnext, scan_ofCursor_indented]
  · simp [scanContent, Cursor.rest, Cursor.position, hcolumn]
  · simp only [Cursor.rest, hcolumn, List.drop_zero]
    simp only [isSignificant, Bool.and_eq_true, Bool.not_eq_true'] at h
    exact h.1
  · rfl
  · rfl

end Stream

/-! ### Lines with nothing to say -/

/-- A comment has no tokens. -/
theorem scanRest_hash {last : Bool} {line column : Nat} {rest : List Char} :
    scanRest last line column ('#' :: rest) = .nil := by
  obtain ⟨hpos, hfound⟩ := Lexeme.recognise_hash rest
  rw [scanRest, if_neg (by simp), if_neg (by simp), hfound]
  simp

/-- Blanks are passed over, one by one or all at once. -/
theorem scanRest_blanks {last : Bool} {line column : Nat} {blanks rest : List Char}
    (h : blanks.all isBlank = true) :
    scanRest last line column (blanks ++ rest) = scanRest last line (column + blanks.length) rest := by
  have hrun (column : Nat) (rest : List Char) : scanRest last line column rest
      = scanRest last line (column + (rest.takeWhile isBlank).length)
        (rest.drop (rest.takeWhile isBlank).length) := by
    cases rest with
    | nil => simp
    | cons c rest =>
        cases hc : isBlank c with
        | false => simp [hc]
        | true =>
            have hquote : ¬ (c :: rest).head? = some '"' := by
              rintro ⟨⟩
              exact absurd hc (by decide)
            obtain ⟨hpos, hfound⟩ := Lexeme.recognise_of_isBlank rest hc
            rw [scanRest, if_neg (by simp), if_neg hquote, hfound]
  have htake : ((blanks ++ rest).takeWhile isBlank).length
      = blanks.length + (rest.takeWhile isBlank).length := by
    rw [List.takeWhile_append_of_pos (List.all_eq_true.1 h), List.length_append]
  rw [hrun column (blanks ++ rest), hrun _ rest, htake, List.drop_append, Nat.add_sub_cancel_left,
    List.drop_of_length_le (Nat.le_add_right _ _), List.nil_append, Nat.add_assoc]

/-- A blank rest of a line has no tokens. -/
theorem scanRest_of_all_isBlank {last : Bool} {line column : Nat} {rest : List Char}
    (h : rest.all isBlank = true) : scanRest last line column rest = .nil := by
  have hrest : rest = rest ++ [] := by simp
  rw [hrest, scanRest_blanks h, scanRest_nil]

theorem scanRest_of_not_isSignificant {last : Bool} {line column : Nat} {rest : List Char}
    (h : isSignificant rest = false) : scanRest last line column rest = .nil := by
  simp only [isSignificant, Bool.and_eq_false_iff, Bool.not_eq_false', bne_eq_false_iff_eq] at h
  rcases h with h | h
  · exact scanRest_of_all_isBlank h
  · cases rest with
    | nil => simp
    | cons c rest =>
        cases h
        exact scanRest_hash

namespace Stream

variable {source : Source}

theorem scan_ofCursor_of_not_hasMore {c : Cursor} (h : c.hasMore source = false) :
    (ofCursor source c).scan = .nil := by
  have hnext : c.next source = (.finished, c) := by
    rw [Cursor.next, dif_neg (by rw [h]; decide)]
  exact scan_ofCursor_finished hnext

/-- An empty line leads to the next one, and what was read before counts on. -/
theorem scan_ofCursor_of_isEmpty {c : Cursor} (hmore : c.hasMore source = true)
    (h : source.line c.line = []) :
    (ofCursor source c).scan
      = (ofCursor source { c with line := c.line + 1, column := 0, crossed := true }).scan := by
  have hadvance : c.advance source 1 = { c with line := c.line + 1, column := 0, crossed := true } :=
    Cursor.advance_of_le (Cursor.line_lt_of_hasMore hmore) (by simp [Source.lineLength, h])
  refine scan_ofCursor_congr ?_
  rw [← hadvance, Cursor.next, dif_pos hmore]
  simp [h, isSignificant]

/-- The lines from one on whose flags are off. -/
theorem scan_lineStart (i : Nat) (hi : 0 < i) :
    (ofCursor source (lineStart i)).scan = scanLines source (source.lines.length - i) i := by
  by_cases hlines : source.lines.length ≤ i
  · rw [Nat.sub_eq_zero_of_le hlines, scanLines]
    refine scan_ofCursor_of_not_hasMore ?_
    simp [Cursor.hasMore, lineStart, Nat.not_lt.2 hlines]
  · have hmore : (lineStart i).hasMore source = true := by
      have hempty : source.isEmpty = false := by
        rw [Source.isEmpty, beq_eq_false_iff_ne]
        intro hsource
        rw [hsource, List.length_singleton] at hlines
        omega
      rw [Cursor.hasMore, hempty, lineStart, Bool.not_false, Bool.and_true, decide_eq_true_eq]
      exact Nat.lt_of_not_le hlines
    have ih := scan_lineStart (i + 1) (by omega)
    have hcount : source.lines.length - i = (source.lines.length - (i + 1)) + 1 := by omega
    rw [hcount, scanLines, ← ih]
    cases hsignificant : isSignificant (source.line i) with
    | true =>
        rw [scan_ofCursor_of_isSignificant (c := lineStart i) hsignificant rfl rfl, scanLine,
          if_pos hsignificant,
          if_neg (by omega), Scan.cons_append]
        rfl
    | false =>
        rw [scanLine, if_neg (by rw [hsignificant]; decide), Scan.nil_append]
        cases hline : source.line i with
        | nil => exact scan_ofCursor_of_isEmpty (c := lineStart i) hmore hline
        | cons c line =>
            have hcolumn : (lineStart i).column < source.lineLength (lineStart i).line := by
              simp [lineStart, Source.lineLength, hline]
            have hbreak :
                ((lineStart i).crossed && isSignificant (source.line (lineStart i).line)) = false := by
              simp [lineStart, hsignificant]
            rw [scan_ofCursor_rest hcolumn hbreak rfl]
            have hrest : (lineStart i).rest source = source.line i := rfl
            rw [hrest, scanRest_of_not_isSignificant hsignificant, Scan.nil_append]
            rfl
termination_by source.lines.length - i

end Stream

/-! ### The whole text -/

namespace Stream

variable {source : Source}

theorem scanLines_of_not_hasMore {c : Cursor} (h : c.hasMore source = false) :
    scanLines source (source.lines.length - c.line) c.line = .nil := by
  rw [Cursor.hasMore, Bool.and_eq_false_iff, decide_eq_false_iff_not, Bool.not_eq_false'] at h
  rcases h with h | h
  · rw [Nat.sub_eq_zero_of_le (Nat.le_of_not_lt h)]
    rfl
  · have hlines : source.lines = [[]] := eq_of_beq h
    cases hline : c.line with
    | zero => simp [hlines, scanLines, scanLine, Source.line, isSignificant]
    | succ i => simp [hlines, scanLines]

/-- A text whose first line says something gives the tokens of its lines and nothing else. -/
theorem scan_ofSource_of_isSignificant (h : isSignificant (source.line 0) = true) :
    (ofSource source).scan = scanLines source source.lines.length 0 := by
  have hline : 0 < source.lines.length :=
    Cursor.line_lt_of_hasMore (Cursor.hasMore_of_isSignificant (c := .start) h)
  have hrest : (Cursor.start.rest source).all isBlank = false := by
    rw [isSignificant, Bool.and_eq_true, Bool.not_eq_true'] at h
    exact h.1
  have hcount : source.lines.length = (source.lines.length - 1) + 1 := by omega
  rw [ofSource, scan_ofCursor_indented hrest rfl rfl, scan_lineStart _ (Nat.succ_pos _), hcount, scanLines,
    scanLine, if_pos h, if_pos rfl]
  rfl

end Stream

/-- Behind an indentation, a line with nothing to say is blank. -/
theorem all_isBlank_drop_of_isPrefixOf {rest : List Char} (h : indentUnit.isPrefixOf rest = true)
    (hrest : isSignificant rest = false) : (rest.drop indentUnit.length).all isBlank = true := by
  obtain ⟨behind, rfl⟩ := List.isPrefixOf_iff_prefix.1 h
  rw [List.drop_left]
  have hhead : ((indentUnit ++ behind).head? != some '#') = true := rfl
  rw [isSignificant, hhead, Bool.and_true, Bool.not_eq_false', List.all_append, Bool.and_eq_true] at hrest
  exact hrest.2

/-- A cursor that has met no line with something to say, or is about to enter the first one. -/
structure Cursor.IsLeading (source : Source) (c : Cursor) : Prop where
  column : c.column = 0 ∨ c.column < source.lineLength c.line
  entered : isSignificant (source.line c.line) = true → c.crossed = true ∧ 0 < c.line ∧ c.column = 0
  rest : isSignificant (source.line c.line) = false → isSignificant (c.rest source) = false

/-- The start of a later line. -/
theorem Cursor.isLeading_of_crossed {source : Source} {c : Cursor} (hcrossed : c.crossed = true)
    (hline : 0 < c.line) (hcolumn : c.column = 0) : c.IsLeading source where
  column := .inl hcolumn
  entered := fun _ => ⟨hcrossed, hline, hcolumn⟩
  rest := fun h => by rw [Cursor.rest, hcolumn, List.drop_zero, h]

/-- An indentation on a line with nothing to say. -/
structure Token.IsStray (source : Source) (t : Token) : Prop where
  kind : t.kind = .indentation
  line : isSignificant (source.line t.position.line) = false

namespace Stream

variable {source : Source}

/-- Before the first line with something to say there can be indentations, if lines in front of it start
with blanks: the start of a text counts as following a line break. -/
theorem exists_scan_eq_append {c : Cursor} (h : c.IsLeading source) :
    ∃ strays : List Token, (∀ t ∈ strays, t.IsStray source) ∧
      (ofCursor source c).scan
        = ⟨strays, none⟩ ++ scanLines source (source.lines.length - c.line) c.line := by
  cases hmore : c.hasMore source with
  | false =>
      refine ⟨[], by simp, ?_⟩
      rw [scan_ofCursor_of_not_hasMore hmore, scanLines_of_not_hasMore hmore]
      rfl
  | true =>
      have hline := Cursor.line_lt_of_hasMore hmore
      have hcount : source.lines.length - c.line = (source.lines.length - (c.line + 1)) + 1 := by omega
      have hbehind : (ofCursor source (lineStart (c.line + 1))).scan = _ := scan_lineStart _ (Nat.succ_pos _)
      rw [hcount, scanLines, ← hbehind]
      cases hsignificant : isSignificant (source.line c.line) with
      | true =>
          obtain ⟨hcrossed, hpos, hcolumn⟩ := h.entered hsignificant
          refine ⟨[], by simp, ?_⟩
          rw [scan_ofCursor_of_isSignificant hsignificant hcrossed hcolumn, scanLine, if_pos hsignificant,
            if_neg (by omega), Scan.cons_append]
          rfl
      | false =>
          have hskip : scanLine source c.line = .nil := by
            rw [scanLine, if_neg (by rw [hsignificant]; decide)]
          have hbreak : (c.crossed && isSignificant (source.line c.line)) = false := by
            rw [hsignificant, Bool.and_false]
          rw [hskip, Scan.nil_append, hbehind]
          by_cases hempty : source.line c.line = []
          · rw [scan_ofCursor_of_isEmpty hmore hempty]
            exact exists_scan_eq_append (Cursor.isLeading_of_crossed rfl (Nat.succ_pos _) rfl)
          · have hcolumn : c.column < source.lineLength c.line := by
              have hpos := List.length_pos_iff.2 hempty
              rcases h.column with hzero | hlt
              · rw [hzero]
                exact hpos
              · exact hlt
            cases hindent : (c.afterNewLine || c.afterIndentation) && indentUnit.isPrefixOf (c.rest source) with
            | false =>
                refine ⟨[], by simp, ?_⟩
                rw [scan_ofCursor_rest hcolumn hbreak hindent,
                  scanRest_of_not_isSignificant (h.rest hsignificant), hbehind]
                rfl
            | true =>
                have hnext := Cursor.next_of_indentation hcolumn hbreak hindent
                have hblank : ((c.rest source).drop indentUnit.length).all isBlank = true :=
                  all_isBlank_drop_of_isPrefixOf (Bool.and_eq_true_iff.1 hindent).2 (h.rest hsignificant)
                rw [scan_ofCursor_token hnext]
                -- The indentation leaves the line or stays on it; either way only such tokens follow.
                by_cases hlt : c.column + indentUnit.length < source.lineLength c.line
                · rw [Cursor.advance_of_lt hlt]
                  obtain ⟨strays, hstrays, hscan⟩ := exists_scan_eq_append
                    (c := ⟨c.line, c.column + indentUnit.length, false, false, true⟩)
                    ⟨.inr hlt, fun hs => absurd hs (by rw [hsignificant]; decide), fun _ => by
                      rw [Cursor.rest, ← List.drop_drop, isSignificant]
                      exact Bool.and_eq_false_iff.2 (.inl (by rw [Bool.not_eq_false']; exact hblank))⟩
                  rw [hcount, scanLines, hskip, Scan.nil_append] at hscan
                  refine ⟨⟨.indentation, c.position⟩ :: strays,
                    List.forall_mem_cons.2 ⟨⟨rfl, hsignificant⟩, hstrays⟩, ?_⟩
                  exact congrArg (Scan.cons _) hscan
                · rw [Cursor.advance_of_le hline (Nat.le_of_not_lt hlt)]
                  obtain ⟨strays, hstrays, hscan⟩ := exists_scan_eq_append
                    (c := ⟨c.line + 1, 0, true, false, true⟩)
                    (Cursor.isLeading_of_crossed rfl (Nat.succ_pos _) rfl)
                  refine ⟨⟨.indentation, c.position⟩ :: strays,
                    List.forall_mem_cons.2 ⟨⟨rfl, hsignificant⟩, hstrays⟩, ?_⟩
                  exact congrArg (Scan.cons _) hscan
termination_by (source.lines.length - c.line, source.lineLength c.line - c.column)
decreasing_by
  · exact Prod.Lex.left _ _ (by omega)
  · refine Prod.Lex.right _ ?_
    simp only [indentUnit, List.length_cons, List.length_nil]
    omega
  · exact Prod.Lex.left _ _ (by omega)

theorem exists_scan_ofSource (source : Source) :
    ∃ strays : List Token, (∀ t ∈ strays, t.IsStray source) ∧
      (ofSource source).scan = ⟨strays, none⟩ ++ scanLines source source.lines.length 0 := by
  cases hsignificant : isSignificant (source.line 0) with
  | true => exact ⟨[], by simp, scan_ofSource_of_isSignificant hsignificant⟩
  | false =>
      exact exists_scan_eq_append (c := .start)
        ⟨.inl rfl, fun hs => absurd hs (by rw [show Cursor.start.line = 0 from rfl, hsignificant]; decide),
          fun _ => hsignificant⟩

end Stream

end PolishPseudocode
