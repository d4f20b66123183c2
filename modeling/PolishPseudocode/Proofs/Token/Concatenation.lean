import PolishPseudocode.Proofs.Relocation
import PolishPseudocode.Proofs.Token.Layout
import Mathlib.Data.List.GetD

/-! The tokens of a text behind another one. The lines of the second text give the tokens that they gave, as many
lines further down as the first text has; only its first line, if it says something, follows a line break now. -/

namespace PolishPseudocode

/-- The place so many lines further down. -/
def Position.down (count : Nat) (p : Position) : Position :=
  ⟨p.line + count, p.column⟩

/-! ### Lines -/

theorem Source.lines_ofText_append (text text' : String) :
    (ofText (text ++ "\n" ++ text')).lines = (ofText text).lines ++ (ofText text').lines := by
  have hchars : (text ++ "\n" ++ text').toList = text.toList ++ '\n' :: text'.toList := by
    rw [String.toList_append, String.toList_append, List.append_assoc]
    rfl
  rw [ofText, hchars, splitLines_append, List.map_append]
  rfl

theorem Source.lines_ofText_ne_nil (text : String) : (ofText text).lines ≠ [] := by
  intro h
  exact splitLines_ne_nil text.toList (List.map_eq_nil_iff.1 h)

/-! ### Lines further down -/

namespace Scan

/-- The same tokens so many lines further down. An error ends reading, so its place is not of interest. -/
def down (count : Nat) (s : Scan) : Scan :=
  { s with tokens := s.tokens.map (Token.relocate (Position.down count)) }

theorem down_append (count : Nat) (s s' : Scan) : (s ++ s').down count = s.down count ++ s'.down count := by
  change (append s s').down count = append (s.down count) (s'.down count)
  obtain ⟨tokens, error⟩ := s
  cases error with
  | none => exact congrArg (Scan.mk · s'.error) List.map_append
  | some e => rfl

theorem down_zero (s : Scan) : s.down 0 = s := by
  have hsame : Token.relocate (Position.down 0) = id := rfl
  rw [down, hsame, List.map_id]

end Scan

variable {source source' : Source} {count i : Nat}

/-- The lexemes of the rest of a line are the same on any line, whether or not others follow. -/
theorem scanRest_down (count : Nat) {last : Bool} {line column : Nat} {rest : List Char}
    (h : (scanRest last line column rest).error = none) (last' : Bool) :
    scanRest last' (line + count) column rest = (scanRest last line column rest).down count := by
  fun_induction scanRest last line column rest with
  | case1 column rest hnil =>
      rw [scanRest, if_pos hnil]
      rfl
  | case2 column rest hne hquote content hclosed ih =>
      rw [scanRest, if_neg hne, if_pos hquote]
      dsimp only
      rw [if_pos hclosed, ih h]
      rfl
  | case3 => cases h
  | case4 => cases h
  | case5 column rest hne hquote found hfound kind hkind ih =>
      rw [scanRest, if_neg hne, if_neg hquote, hfound]
      dsimp only
      rw [hkind]
      dsimp only
      rw [ih h]
      rfl
  | case6 column rest hne hquote found hfound hkind ih =>
      rw [scanRest, if_neg hne, if_neg hquote, hfound]
      dsimp only
      split
      · exact absurd ‹_› (hkind _)
      · exact ih h

theorem scanIndents_down (count line column indents : Nat) :
    scanIndents (line + count) column indents = (scanIndents line column indents).down count := by
  induction indents generalizing column with
  | zero => rfl
  | succ indents ih =>
      rw [scanIndents, scanIndents, ih]
      rfl

theorem scanContent_down (hline : source'.line (i + count) = source.line i)
    (h : (scanContent source i).error = none) :
    scanContent source' (i + count) = (scanContent source i).down count := by
  rw [scanContent_eq] at h
  rw [scanContent_eq, scanContent_eq, Scan.down_append, scanIndents_down, scanBody, scanBody, hline]
  rw [scanRest_down count (Scan.error_append h).2]

/-- A line that is not the first one of its text gives the same tokens further down. -/
theorem scanLine_down (hline : source'.line (i + count) = source.line i) (hlater : count = 0 ∨ 0 < i)
    (h : (scanLine source i).error = none) :
    scanLine source' (i + count) = (scanLine source i).down count := by
  rw [scanLine] at h
  rw [scanLine, scanLine, hline]
  by_cases hsignificant : isSignificant (source.line i) = true
  · rw [if_pos hsignificant] at h
    rw [if_pos hsignificant, if_pos hsignificant]
    by_cases hi : i = 0
    · rw [if_pos hi] at h
      rw [if_pos hi, if_pos (by omega)]
      exact scanContent_down hline h
    · rw [if_neg hi] at h
      rw [if_neg hi, if_neg (by omega), scanContent_down hline h]
      rfl
  · rw [if_neg hsignificant, if_neg hsignificant]
    rfl

/-- The first line of a text gives a line break more where it stands further down. -/
theorem scanLine_down_zero (hline : source'.line count = source.line 0) (hcount : 0 < count)
    (h : (scanLine source 0).error = none) :
    scanLine source' count
      = ⟨if isSignificant (source.line 0) then [⟨.newLine, ⟨count, 0⟩⟩] else [], none⟩
        ++ (scanLine source 0).down count := by
  rw [scanLine] at h
  rw [scanLine, scanLine, hline]
  by_cases hsignificant : isSignificant (source.line 0) = true
  · rw [if_pos hsignificant, if_pos rfl] at h
    have hline' : source'.line (0 + count) = source.line 0 := by rw [Nat.zero_add, hline]
    have hcontent := scanContent_down hline' h
    rw [Nat.zero_add] at hcontent
    rw [if_pos hsignificant, if_pos hsignificant, if_pos hsignificant, if_neg (by omega), if_pos rfl, hcontent]
    rfl
  · rw [if_neg hsignificant, if_neg hsignificant, if_neg hsignificant]
    rfl

/-- A text that says nothing on its first line starts with a line break. -/
theorem newLine_of_mem_head_of_not_isSignificant (h : isSignificant (source.line 0) = false) (count : Nat) :
    ∀ t ∈ (scanLines source count 0).tokens.head?, t.kind = .newLine := by
  cases count with
  | zero =>
      intro t ht
      cases ht
  | succ count =>
      rw [scanLines, scanLine, if_neg (by rw [h]; exact Bool.false_ne_true), Scan.nil_append]
      exact newLine_of_mem_head_scanLines Nat.one_pos

theorem scanLines_add (source : Source) (a b i : Nat) :
    scanLines source (a + b) i = scanLines source a i ++ scanLines source b (i + a) := by
  induction a generalizing i with
  | zero => rw [Nat.zero_add, scanLines, Scan.nil_append, Nat.add_zero]
  | succ a ih =>
      have hnext : i + 1 + a = i + (a + 1) := by omega
      rw [Nat.succ_add, scanLines, scanLines, ih, Scan.append_assoc, hnext]

theorem scanLines_down {lines : Nat}
    (hlines : ∀ j, i ≤ j → j < i + lines → source'.line (j + count) = source.line j)
    (hlater : count = 0 ∨ 0 < i) (h : (scanLines source lines i).error = none) :
    scanLines source' lines (i + count) = (scanLines source lines i).down count := by
  induction lines generalizing i with
  | zero => rfl
  | succ lines ih =>
      rw [scanLines] at h
      obtain ⟨hfirst, hrest⟩ := Scan.error_append h
      have hnext : i + count + 1 = i + 1 + count := by omega
      have hlines' : ∀ j, i + 1 ≤ j → j < i + 1 + lines → source'.line (j + count) = source.line j :=
        fun j hle hlt => hlines j (by omega) (by omega)
      rw [scanLines, scanLines, Scan.down_append, scanLine_down (hlines i (by omega) (by omega)) hlater hfirst,
        hnext, ih hlines' (by omega) hrest]

/-! ### Two texts -/

namespace Source

variable {whole front back : Source}

theorem line_append_left (h : whole.lines = front.lines ++ back.lines) {j : Nat} (hj : j < front.lines.length) :
    whole.line j = front.line j := by
  rw [line, h, List.getD_append _ _ _ _ hj]
  rfl

theorem line_append_right (h : whole.lines = front.lines ++ back.lines) (j : Nat) :
    whole.line (j + front.lines.length) = back.line j := by
  rw [line, h, List.getD_append_right _ _ _ _ (Nat.le_add_left _ _), Nat.add_sub_cancel]
  rfl

/-- The line break before the first line of a text where it stands behind another one, if it says something. -/
def firstBreak (source : Source) (count : Nat) : List Token :=
  if isSignificant (source.line 0) then [⟨.newLine, ⟨count, 0⟩⟩] else []

/-- The tokens of the lines of two texts, one behind the other. -/
theorem scanLines_append (h : whole.lines = front.lines ++ back.lines) (hfront : 0 < front.lines.length)
    (hback : 0 < back.lines.length) (herror : (scanLines front front.lines.length 0).error = none)
    (herror' : (scanLines back back.lines.length 0).error = none) :
    scanLines whole whole.lines.length 0 = scanLines front front.lines.length 0
      ++ (⟨back.firstBreak front.lines.length, none⟩
        ++ (scanLines back back.lines.length 0).down front.lines.length) := by
  have hfirst : scanLines whole front.lines.length 0 = scanLines front front.lines.length 0 := by
    have hlines : ∀ j, 0 ≤ j → j < 0 + front.lines.length → whole.line (j + 0) = front.line j :=
      fun j _ hj => line_append_left h (by omega)
    exact (scanLines_down hlines (.inl rfl) herror).trans (Scan.down_zero _)
  have hsecond : scanLines whole back.lines.length front.lines.length
      = ⟨back.firstBreak front.lines.length, none⟩
        ++ (scanLines back back.lines.length 0).down front.lines.length := by
    obtain ⟨count, hcount⟩ := Nat.exists_eq_succ_of_ne_zero (Nat.ne_of_gt hback)
    rw [hcount, scanLines] at herror' ⊢
    obtain ⟨hzero, hlater⟩ := Scan.error_append herror'
    have hline : whole.line front.lines.length = back.line 0 := by
      simpa using line_append_right h 0
    rw [scanLines, scanLine_down_zero hline hfront hzero, Scan.append_assoc, Scan.down_append, Nat.add_comm _ 1]
    rw [scanLines_down (fun j _ _ => line_append_right h j) (.inr Nat.one_pos) hlater]
    rfl
  rw [h, List.length_append, scanLines_add, Nat.zero_add, hfirst, hsecond]

end Source

/-! ### The start of a text -/

/-- Whether the first line that is not empty starts like an indentation only if it says something. -/
def startsClean : List (List Char) → Bool
  | [] => true
  | line :: lines =>
      if line.isEmpty then startsClean lines else isSignificant line || !indentUnit.isPrefixOf line

theorem startsClean_append {lines lines' : List (List Char)} (h : startsClean lines = true)
    (h' : startsClean lines' = true) : startsClean (lines ++ lines') = true := by
  induction lines with
  | nil => exact h'
  | cons line lines ih =>
      rw [List.cons_append, startsClean]
      rw [startsClean] at h
      split
      · rename_i hempty
        rw [if_pos hempty] at h
        exact ih h
      · rename_i hempty
        rw [if_neg hempty] at h
        exact h

namespace Stream

theorem startsClean_drop_of_not_hasMore {source : Source} {c : Cursor} (h : c.hasMore source = false) :
    startsClean (source.lines.drop c.line) = true := by
  rw [Cursor.hasMore, Bool.and_eq_false_iff, decide_eq_false_iff_not, Bool.not_eq_false'] at h
  rcases h with hend | hnothing
  · rw [List.drop_eq_nil_of_le (Nat.le_of_not_lt hend)]
    rfl
  · rw [eq_of_beq hnothing]
    cases c.line with
    | zero => rfl
    | succ i =>
        rw [List.drop_succ_cons, List.drop_nil]
        rfl

/-- Behind empty lines at the start of a text the first line counts as entered, whatever it says: there is an
indentation before the tokens of the lines exactly if the text does not start clean. -/
theorem scan_leading (source : Source) (crossed : Bool) (i : Nat)
    (hentered : isSignificant (source.line i) = true → crossed = true ∧ 0 < i) :
    let scan := (ofCursor source ⟨i, 0, crossed, true, false⟩).scan
    if startsClean (source.lines.drop i) then scan = scanLines source (source.lines.length - i) i
    else scan.tokens.head?
      = some ⟨.indentation, ⟨i + ((source.lines.drop i).takeWhile List.isEmpty).length, 0⟩⟩ := by
  intro scan
  cases hmore : Cursor.hasMore source ⟨i, 0, crossed, true, false⟩ with
  | false =>
      rw [if_pos (startsClean_drop_of_not_hasMore hmore)]
      exact (scan_ofCursor_of_not_hasMore hmore).trans (scanLines_of_not_hasMore hmore).symm
  | true =>
      have hline : i < source.lines.length := Cursor.line_lt_of_hasMore hmore
      have hdrop : source.lines.drop i = source.line i :: source.lines.drop (i + 1) := by
        rw [List.drop_eq_getElem_cons hline, Source.line, List.getD_eq_getElem _ _ hline]
      have hcount : source.lines.length - i = (source.lines.length - (i + 1)) + 1 := by omega
      have hbehind : (ofCursor source (lineStart (i + 1))).scan = _ := scan_lineStart _ (Nat.succ_pos _)
      rw [hdrop, startsClean, hcount, scanLines]
      by_cases hempty : source.line i = []
      · have hskip : scanLine source i = .nil := by
          rw [scanLine, hempty]
          rfl
        have hscan : scan = (ofCursor source ⟨i + 1, 0, true, true, false⟩).scan :=
          scan_ofCursor_of_isEmpty hmore hempty
        have hlength : i + ((source.line i :: source.lines.drop (i + 1)).takeWhile List.isEmpty).length
            = i + 1 + ((source.lines.drop (i + 1)).takeWhile List.isEmpty).length := by
          rw [List.takeWhile_cons_of_pos (List.isEmpty_iff.2 hempty), List.length_cons]
          omega
        rw [if_pos (List.isEmpty_iff.2 hempty), hskip, Scan.nil_append, hscan, hlength]
        exact scan_leading source true (i + 1) fun _ => ⟨rfl, Nat.succ_pos i⟩
      · rw [if_neg fun hnil => hempty (List.isEmpty_iff.1 hnil)]
        cases hsignificant : isSignificant (source.line i) with
        | true =>
            obtain ⟨hcrossed, hpos⟩ := hentered hsignificant
            rw [if_pos (Bool.true_or _), scanLine, if_pos hsignificant, if_neg (Nat.ne_of_gt hpos), ← hbehind,
              Scan.cons_append]
            exact scan_ofCursor_of_isSignificant hsignificant hcrossed rfl
        | false =>
            have hcolumn : 0 < source.lineLength i := List.length_pos_iff.2 hempty
            have hbreak : (crossed && isSignificant (source.line i)) = false := by
              rw [hsignificant, Bool.and_false]
            have hrest : Cursor.rest source ⟨i, 0, crossed, true, false⟩ = source.line i := rfl
            cases hindent : indentUnit.isPrefixOf (source.line i) with
            | true =>
                have hnext := Cursor.next_of_indentation (c := ⟨i, 0, crossed, true, false⟩) hcolumn hbreak hindent
                rw [if_neg (by decide), show scan = _ from scan_ofCursor_token hnext,
                  List.takeWhile_cons_of_neg fun hnil => hempty (List.isEmpty_iff.1 hnil)]
                rfl
            | false =>
                have hskip : scanLine source i = .nil := by
                  rw [scanLine, if_neg (by rw [hsignificant]; exact Bool.false_ne_true)]
                rw [if_pos (by decide), hskip, Scan.nil_append, ← hbehind]
                have hscan : scan = _ := scan_ofCursor_rest hcolumn hbreak hindent
                rw [hscan, hrest, scanRest_of_not_isSignificant hsignificant, Scan.nil_append]
termination_by source.lines.length - i

theorem startsClean_of_isSignificant {source : Source} (h : isSignificant (source.line 0) = true) :
    startsClean source.lines = true := by
  cases hlines : source.lines with
  | nil => rfl
  | cons line lines =>
      have hline : isSignificant line = true := by
        rwa [Source.line, hlines] at h
      rw [startsClean, hline]
      split
      · rename_i hempty
        rw [List.isEmpty_iff.1 hempty] at hline
        cases hline
      · rfl

/-- The tokens of a text that starts clean are those of its lines. -/
theorem scan_ofSource_of_startsClean {source : Source} (h : startsClean source.lines = true) :
    (ofSource source).scan = scanLines source source.lines.length 0 := by
  by_cases hsignificant : isSignificant (source.line 0) = true
  · exact scan_ofSource_of_isSignificant hsignificant
  · have hscan := scan_leading source false 0 fun hs => absurd hs hsignificant
    dsimp only at hscan
    rw [List.drop_zero, if_pos h] at hscan
    exact hscan

/-- A text whose first token is no indentation starts clean. -/
theorem startsClean_of_head {source : Source}
    (h : ∀ t ∈ (ofSource source).tokens.head?, t.token.kind ≠ .indentation) : startsClean source.lines = true := by
  by_cases hsignificant : isSignificant (source.line 0) = true
  · exact startsClean_of_isSignificant hsignificant
  · by_contra hclean
    have hscan := scan_leading source false 0 fun hs => absurd hs hsignificant
    dsimp only at hscan
    rw [List.drop_zero, if_neg hclean, scan, List.head?_map] at hscan
    obtain ⟨t, ht, htoken⟩ := Option.map_eq_some_iff.1 hscan
    exact h t ht (congrArg Token.kind htoken)

end Stream

end PolishPseudocode
