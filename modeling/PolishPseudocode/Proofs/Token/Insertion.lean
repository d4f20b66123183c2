import PolishPseudocode.Proofs.Token.Concatenation

/-! One line more in a text. The lines before it give the tokens that they gave, and the lines behind it the same
ones a line further down. If the new line is the first, the line behind it follows a line break now. -/

namespace PolishPseudocode

/-- Where a place is found once a line is put in before the line `line`. -/
def Position.below (line : Nat) (p : Position) : Position :=
  if line ≤ p.line then p.down 1 else p

/-- The second source is the first one with `line` between the lines `before` and `after`. -/
structure Source.Inserts (before : List (List Char)) (line : List Char) (after : List (List Char))
    (source source' : Source) : Prop where
  lines : source.lines = before ++ after
  lines' : source'.lines = before ++ line :: after

/-! ### Tokens and their lines -/

/-- Tokens in lines before the new one stay where they are. -/
theorem relocate_below_of_lt {source : Source} (line : Nat) :
    (scanLines source line 0).tokens.map (Token.relocate (Position.below line))
      = (scanLines source line 0).tokens := by
  refine (List.map_congr_left fun t ht => ?_).trans (List.map_id _)
  obtain ⟨-, hlt⟩ := line_of_mem_scanLines ht
  have hnot : ¬ line ≤ t.position.line := by omega
  change { t with position := Position.below line t.position } = t
  rw [Position.below, if_neg hnot]

/-- Tokens in later lines are moved down. -/
theorem relocate_below_of_le {source : Source} (line count : Nat) :
    (scanLines source count line).tokens.map (Token.relocate (Position.below line))
      = (scanLines source count line).tokens.map (Token.relocate (Position.down 1)) := by
  refine List.map_congr_left fun t ht => ?_
  obtain ⟨hle, -⟩ := line_of_mem_scanLines ht
  change { t with position := Position.below line t.position } = { t with position := t.position.down 1 }
  rw [Position.below, if_pos hle]

namespace Source.Inserts

variable {before after : List (List Char)} {line : List Char} {source source' : Source}

theorem line_eq (h : Inserts before line after source source') : source'.line before.length = line := by
  rw [Source.line, h.lines', List.getD_append_right _ _ _ _ (Nat.le_refl _), Nat.sub_self]
  rfl

theorem line_of_lt (h : Inserts before line after source source') {j : Nat} (hj : j < before.length) :
    source'.line j = source.line j := by
  rw [Source.line, Source.line, h.lines, h.lines', List.getD_append _ _ _ _ hj, List.getD_append _ _ _ _ hj]

theorem line_of_le (h : Inserts before line after source source') {j : Nat} (hj : before.length ≤ j) :
    source'.line (j + 1) = source.line j := by
  have hsub : j + 1 - before.length = (j - before.length) + 1 := by omega
  rw [Source.line, Source.line, h.lines, h.lines', List.getD_append_right _ _ _ _ (Nat.le_succ_of_le hj),
    List.getD_append_right _ _ _ _ hj, hsub]
  rfl

/-- The tokens behind the new line: the line break before the first line of the old text, if the new line is put in
there, and the tokens of the later lines. -/
def behind (before : List (List Char)) (source : Source) : Scan :=
  ⟨if before = [] then source.firstBreak 1 else [], none⟩
    ++ (scanLines source (source.lines.length - before.length) before.length).down 1

/-- The lines behind the new one. -/
theorem scanLines_behind (h : Inserts before line after source source')
    (herror : (scanLines source after.length before.length).error = none) :
    scanLines source' after.length (before.length + 1) = behind before source := by
  have hcount : source.lines.length - before.length = after.length := by
    rw [h.lines, List.length_append, Nat.add_sub_cancel_left]
  rw [behind, hcount]
  by_cases hempty : before = []
  · -- The line behind the new one was the first of the text.
    subst hempty
    rw [if_pos rfl]
    cases hrest : after.length with
    | zero =>
        have hnothing : source.firstBreak 1 = [] := by
          have hnone : source.line 0 = [] := by
            rw [Source.line, h.lines, List.length_eq_zero_iff.1 hrest]
            rfl
          rw [Source.firstBreak, hnone]
          rfl
        rw [hnothing]
        rfl
    | succ count =>
        rw [hrest, List.length_nil, scanLines] at herror
        obtain ⟨hzero, hlater⟩ := Scan.error_append herror
        have hline : source'.line 1 = source.line 0 := h.line_of_le (Nat.le_refl 0)
        have hlater' := scanLines_down (fun j _ _ => h.line_of_le (Nat.zero_le j)) (.inr Nat.one_pos) hlater
        rw [List.length_nil, Nat.zero_add, scanLines, scanLines, scanLine_down_zero hline Nat.one_pos hzero,
          Scan.append_assoc, Scan.down_append, hlater']
        rfl
  · have hpos : 0 < before.length := List.length_pos_iff.2 hempty
    rw [if_neg hempty]
    exact scanLines_down (fun j hj _ => h.line_of_le hj) (.inr hpos) herror

/-- The tokens of the lines of the new text. -/
theorem scanLines_eq (h : Inserts before line after source source')
    (herror : (scanLines source source.lines.length 0).error = none) :
    scanLines source' source'.lines.length 0 = scanLines source before.length 0
      ++ (scanLine source' before.length ++ behind before source) := by
  have hlength : source.lines.length = before.length + after.length := by
    rw [h.lines, List.length_append]
  have hlength' : source'.lines.length = before.length + (1 + after.length) := by
    rw [h.lines', List.length_append, List.length_cons, Nat.add_comm after.length]
  rw [hlength, scanLines_add, Nat.zero_add] at herror
  obtain ⟨hbefore, hafter⟩ := Scan.error_append herror
  have hfirst : scanLines source' before.length 0 = scanLines source before.length 0 := by
    have hsame : ∀ j, 0 ≤ j → j < 0 + before.length → source'.line (j + 0) = source.line j :=
      fun j _ hj => h.line_of_lt (by omega)
    exact (scanLines_down hsame (.inl rfl) hbefore).trans (Scan.down_zero _)
  have hone : scanLines source' 1 before.length = scanLine source' before.length := by
    rw [scanLines, scanLines, Scan.append_nil]
  rw [hlength', scanLines_add, scanLines_add, Nat.zero_add, hfirst, hone, h.scanLines_behind hafter]

theorem kind_of_mem_head_down {s : Scan} {kind : Token.Kind} (h : ∀ t ∈ s.tokens.head?, t.kind = kind) (count : Nat) :
    ∀ t ∈ (s.down count).tokens.head?, t.kind = kind := by
  intro t ht
  rw [Scan.down, List.head?_map] at ht
  obtain ⟨t', ht', rfl⟩ := Option.map_eq_some_iff.1 ht
  exact h t' ht'

/-- Behind the new line there is a line break, or nothing. -/
theorem newLine_of_mem_head_behind (before : List (List Char)) (source : Source) :
    ∀ t ∈ (behind before source).tokens.head?, t.kind = .newLine := by
  rw [behind, Scan.append_of_error_none rfl]
  by_cases hempty : before = []
  · subst hempty
    rw [if_pos rfl, Source.firstBreak]
    by_cases hfirst : isSignificant (source.line 0) = true
    · rw [if_pos hfirst]
      rintro t ⟨⟩
      rfl
    · rw [if_neg hfirst]
      exact kind_of_mem_head_down (newLine_of_mem_head_of_not_isSignificant (Bool.eq_false_iff.2 hfirst) _) 1
  · rw [if_neg hempty]
    exact kind_of_mem_head_down (newLine_of_mem_head_scanLines (List.length_pos_iff.2 hempty)) 1

end Source.Inserts

/-! ### The start of the new text -/

/-- Behind a line that is not empty, nothing matters for the start of a text. -/
theorem startsClean_append_of_any {lines lines' lines'' : List (List Char)} (h : ∃ line ∈ lines, line ≠ []) :
    startsClean (lines ++ lines') = startsClean (lines ++ lines'') := by
  obtain ⟨line, hmem, hline⟩ := h
  induction lines with
  | nil => cases hmem
  | cons first lines ih =>
      rw [List.cons_append, List.cons_append, startsClean, startsClean]
      by_cases hfirst : first.isEmpty = true
      · rw [if_pos hfirst, if_pos hfirst]
        rcases List.mem_cons.1 hmem with rfl | hmem
        · exact absurd (List.isEmpty_iff.1 hfirst) hline
        · exact ih hmem
      · rw [if_neg hfirst, if_neg hfirst]

/-- Empty lines at the start do not matter. -/
theorem startsClean_append_of_all {lines lines' : List (List Char)} (h : ∀ line ∈ lines, line = []) :
    startsClean (lines ++ lines') = startsClean lines' := by
  induction lines with
  | nil => rfl
  | cons first lines ih =>
      rw [List.cons_append, startsClean, h first List.mem_cons_self]
      exact ih fun line hline => h line (List.mem_cons_of_mem first hline)

/-! ### First tokens of lines -/

theorem scanRest_kinds (last last' : Bool) (line line' column column' : Nat) (rest : List Char) :
    (scanRest last line column rest).tokens.map Token.kind
      = (scanRest last' line' column' rest).tokens.map Token.kind := by
  fun_induction scanRest last line column rest generalizing column' with
  | case1 column rest hnil => rw [scanRest.eq_def last', if_pos hnil]
  | case2 column rest hne hquote content hclosed ih =>
      rw [scanRest.eq_def last', if_neg hne, if_pos hquote]
      dsimp only
      rw [if_pos hclosed]
      exact congrArg (List.cons _) (ih _)
  | case3 column rest hne hquote content hopen =>
      rw [scanRest.eq_def last', if_neg hne, if_pos hquote]
      dsimp only
      rw [if_neg hopen]
  | case4 column rest hne hquote hfound => rw [scanRest.eq_def last', if_neg hne, if_neg hquote, hfound]
  | case5 column rest hne hquote found hfound kind hkind ih =>
      rw [scanRest.eq_def last', if_neg hne, if_neg hquote, hfound]
      dsimp only
      rw [hkind]
      exact congrArg (List.cons kind) (ih _)
  | case6 column rest hne hquote found hfound hkind ih =>
      rw [scanRest.eq_def last', if_neg hne, if_neg hquote, hfound]
      dsimp only
      split
      · exact absurd ‹_› (hkind _)
      · exact ih _

/-- The kind of the first token of a line, behind its line break. -/
def headKind? (line : List Char) : Option Token.Kind :=
  (scanIndented false 0 0 line).tokens.head?.map Token.kind

theorem headKind?_eq (source : Source) (i : Nat) :
    headKind? (source.line i) = (scanContent source i).tokens.head?.map Token.kind := by
  have hkinds : (scanIndented false 0 0 (source.line i)).tokens.map Token.kind
      = (scanContent source i).tokens.map Token.kind := by
    rw [scanContent, scanIndented, scanIndented, Scan.tokens_append (scanIndents_error ..),
      Scan.tokens_append (scanIndents_error ..), List.map_append, List.map_append, kinds_scanIndents,
      kinds_scanIndents]
    exact congrArg _ (scanRest_kinds ..)
  rw [headKind?, ← List.head?_map, hkinds, List.head?_map]

/-- Whether a line that starts with a token of this kind is neither of a block nor another branch. -/
def Token.Kind.staysOutside (kind : Token.Kind) : Bool :=
  kind != .indentation && kind != .keyword .else_

/-- Behind the first line break of later lines stands the first token of the first line that says something; if it
has none, there is a line break again, or nothing. -/
theorem staysOutside_scanLines {source : Source} {before after : List (List Char)}
    (hlines : source.lines = before ++ after) (hbefore : before ≠ [])
    (herror : (scanLines source after.length before.length).error = none) :
    ((scanLines source after.length before.length).tokens.tail.head?.all fun t => t.kind.staysOutside)
      = ((after.find? isSignificant).bind headKind?).all Token.Kind.staysOutside := by
  induction after generalizing before with
  | nil => rfl
  | cons line after ih =>
      have hline : source.line before.length = line := by
        rw [Source.line, hlines, List.getD_append_right _ _ _ _ (Nat.le_refl _), Nat.sub_self]
        rfl
      rw [List.length_cons, scanLines] at herror ⊢
      obtain ⟨hfirst, hlater⟩ := Scan.error_append herror
      cases hsignificant : isSignificant line with
      | false =>
          have hnext := @ih (before ++ [line]) (by rw [hlines, List.append_assoc]; rfl) (by simp)
          rw [List.length_append, List.length_singleton] at hnext
          rw [List.find?_cons_of_neg (by rw [hsignificant]; exact Bool.false_ne_true), scanLine, hline, hsignificant,
            if_neg Bool.false_ne_true, Scan.nil_append]
          exact hnext hlater
      | true =>
          have hpos : before.length ≠ 0 := List.length_eq_zero_iff.not.2 hbefore
          rw [scanLine, hline, hsignificant, if_pos rfl, if_neg hpos] at hfirst
          rw [List.find?_cons_of_pos hsignificant, scanLine, hline, hsignificant, if_pos rfl, if_neg hpos,
            Scan.cons_append, Option.bind_some, ← hline, headKind?_eq]
          change ((scanContent source before.length ++ _).tokens.head?.all _) = _
          have hcontent : (scanContent source before.length).error = none := hfirst
          rw [Scan.tokens_append hcontent]
          cases hcontents : (scanContent source before.length).tokens with
          | cons first rest => rfl
          | nil =>
              rw [List.nil_append]
              cases hnext : (scanLines source after.length (before.length + 1)).tokens.head? with
              | none => rfl
              | some t =>
                  have hkind : t.kind = .newLine := newLine_of_mem_head_scanLines (Nat.succ_pos _) t hnext
                  rw [Option.all_some, hkind]
                  rfl

end PolishPseudocode
