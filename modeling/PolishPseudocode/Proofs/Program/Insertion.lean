import PolishPseudocode.Proofs.Program.Concatenation
import PolishPseudocode.Proofs.Token.Insertion

/-! One line more in a program. Without the tokens of the new line, the tokens before and behind it are those of the
program with the later lines moved down. A blank line has no tokens, unless it is the first line that is not empty:
there, four blanks are an indentation, which no program starts with. -/

namespace PolishPseudocode

/-- The second text is the first one with `line` between the lines `before` and `after`. -/
structure InsertsLine (before : List (List Char)) (line : List Char) (after : List (List Char))
    (text text' : String) : Prop where
  lines : splitLines text.toList = before ++ after
  lines' : splitLines text'.toList = before ++ line :: after

theorem InsertsLine.inserts {before after : List (List Char)} {line : List Char} {text text' : String}
    (h : InsertsLine before line after text text') :
    Source.Inserts (before.map expandTab) (expandTab line) (after.map expandTab) (Source.ofText text)
      (Source.ofText text') where
  lines := by rw [Source.ofText, h.lines, List.map_append]
  lines' := by rw [Source.ofText, h.lines', List.map_append, List.map_cons]

/-- The tokens of a source with a line put in: those before it, its own and those behind it. Without its own, they
are read as the program with the later lines moved down. -/
structure Insertion (source source' : Source) (before : List (List Char)) (program : Program)
    (front inner behind : List Lexed) : Prop where
  tokens : (Stream.ofSource source').tokens = front ++ (inner ++ behind)
  finished : ∃ c, (Stream.ofSource source').ending = .finished c
  front_eq : front.map Lexed.token = (scanLines source before.length 0).tokens
  inner_eq : inner.map Lexed.token = (scanLine source' before.length).tokens
  behind_eq : behind.map Lexed.token = (Source.Inserts.behind before source).tokens
  atBreak : Reading.AtBreak behind
  statements : Reading.statements ⟨source', (Stream.ofSource source').ending⟩ (front ++ behind)
    = .ok (Statement.relocateAll (Position.below before.length) program)

theorem Reading.atBreak_of_head {tokens : List Lexed}
    (h : ∀ t ∈ (tokens.map Lexed.token).head?, t.kind = .newLine) : AtBreak tokens := by
  cases tokens with
  | nil => rfl
  | cons next tokens => exact beq_iff_eq.2 (h next.token rfl)

section

variable {source source' : Source} {before after : List (List Char)} {line : List Char} {program : Program}

/-- Where a line is put in before the first, the old text stands behind it as behind another text. -/
theorem ReadFrom.statements_behind_nil (h : ReadFrom source program) {c : Cursor} {behind : List Lexed}
    (hbehind : behind.map Lexed.token = (Source.Inserts.behind [] source).tokens) :
    Reading.statements ⟨source', .finished c⟩ behind
      = .ok (Statement.relocateAll (Position.below 0) program) := by
  have hbelow : Position.below 0 = Position.down 1 := by
    funext p
    exact if_pos (Nat.zero_le _)
  have hall : source.lines.length - ([] : List (List Char)).length = source.lines.length := rfl
  rw [Source.Inserts.behind, if_pos rfl, Scan.append_of_error_none rfl, hall, List.length_nil, h.scan_eq] at hbehind
  rw [hbelow]
  exact (ReadFrom.resumes (r := ⟨source', .finished c⟩) rfl h hbehind).statements

/-- Where a line is put in between two lines, or behind the last, the tokens of the other lines are moved. -/
theorem ReadFrom.statements_front_behind (h : ReadFrom source program)
    (hinserts : Source.Inserts before line after source source') (hbefore : before ≠ []) {c : Cursor}
    {front behind : List Lexed} (hfront : front.map Lexed.token = (scanLines source before.length 0).tokens)
    (hbehind : behind.map Lexed.token = (Source.Inserts.behind before source).tokens) :
    Reading.statements ⟨source', .finished c⟩ (front ++ behind)
      = .ok (Statement.relocateAll (Position.below before.length) program) := by
  have hlength : source.lines.length = before.length + (source.lines.length - before.length) := by
    rw [hinserts.lines, List.length_append, Nat.add_sub_cancel_left]
  have hscan := h.scan_eq
  rw [hlength, scanLines_add, Nat.zero_add] at hscan
  have herror := Scan.error_append (congrArg Scan.error hscan)
  rw [Scan.append_of_error_none herror.1] at hscan
  have htokens : (Stream.ofSource source).tokens.map Lexed.token = _ := (congrArg Scan.tokens hscan).symm
  have hmoved : Moved (Position.below before.length) (Stream.ofSource source).tokens (front ++ behind) := by
    change (front ++ behind).map Lexed.token
      = (Stream.ofSource source).tokens.map (Token.relocate (Position.below before.length) ∘ Lexed.token)
    rw [← List.map_map, htokens, List.map_append, List.map_append, relocate_below_of_lt, relocate_below_of_le,
      hfront, hbehind, Source.Inserts.behind, if_neg hbefore]
    rfl
  obtain ⟨c', hending⟩ := h.finished
  have hends : Reading.EndsAlike ⟨source, (Stream.ofSource source).ending⟩ ⟨source', .finished c⟩ :=
    Reading.endsAlike_of_finished hending rfl
  have hagree := Reading.statements_moved hends hmoved
  rw [h.statements] at hagree
  obtain ⟨_, hprogram, rfl⟩ := hagree.exists_of_ok
  exact hprogram

theorem ReadFrom.insertion (h : ReadFrom source program) (hinserts : Source.Inserts before line after source source')
    (hclean : startsClean source'.lines = true) (hline : (scanLine source' before.length).error = none) :
    ∃ front inner behind, Insertion source source' before program front inner behind := by
  have hscan : (Stream.ofSource source').scan = _ := Stream.scan_ofSource_of_startsClean hclean
  have herror : (scanLines source source.lines.length 0).error = none := by rw [h.scan_eq]
  have hlength : source.lines.length = before.length + (source.lines.length - before.length) := by
    rw [hinserts.lines, List.length_append, Nat.add_sub_cancel_left]
  obtain ⟨hfront, hbehind⟩ : (scanLines source before.length 0).error = none
      ∧ (Source.Inserts.behind before source).error = none := by
    rw [hlength, scanLines_add, Nat.zero_add] at herror
    obtain ⟨hfront, hbehind⟩ := Scan.error_append herror
    refine ⟨hfront, ?_⟩
    rw [Source.Inserts.behind, Scan.append_of_error_none rfl]
    exact hbehind
  rw [hinserts.scanLines_eq herror, Scan.append_of_error_none hfront, Scan.append_of_error_none hline,
    hbehind] at hscan
  have hfinished : ∃ c, (Stream.ofSource source').ending = .finished c :=
    Stream.finished_of_scan (congrArg Scan.error hscan)
  have htokens : (Stream.ofSource source').tokens.map Lexed.token = _ := congrArg Scan.tokens hscan
  obtain ⟨front, rest, hsplit, hfronts, hrest⟩ := List.map_eq_append_iff.1 htokens
  obtain ⟨inner, behind, rfl, hinner, hbehinds⟩ := List.map_eq_append_iff.1 hrest
  refine ⟨front, inner, behind, hsplit, hfinished, hfronts, hinner, hbehinds, ?_, ?_⟩
  · apply Reading.atBreak_of_head
    rw [hbehinds]
    exact Source.Inserts.newLine_of_mem_head_behind before source
  · obtain ⟨c, hending⟩ := hfinished
    rw [hending]
    by_cases hempty : before = []
    · subst hempty
      have hnone : front = [] := List.map_eq_nil_iff.1 hfronts
      rw [hnone, List.nil_append]
      exact h.statements_behind_nil hbehinds
    · exact h.statements_front_behind hinserts hempty hfronts hbehinds

/-- A source without tokens of its own in the new line. -/
theorem Insertion.ofSource_eq {front behind : List Lexed}
    (h : Insertion source source' before program front [] behind) :
    Program.ofSource source' = .ok (Statement.relocateAll (Position.below before.length) program) := by
  obtain ⟨c, hending⟩ := h.finished
  rw [Program.ofSource_of_finished hending, h.tokens]
  exact h.statements

/-- A text that does not start clean is refused at the blanks before which there are only empty lines. -/
theorem ofSource_of_not_startsClean (h : startsClean source.lines = false) :
    Program.ofSource source
      = .error ⟨.strayIndentation, ⟨(source.lines.takeWhile List.isEmpty).length, 0⟩⟩ := by
  have hsignificant : ¬ isSignificant (source.line 0) = true := by
    intro hsignificant
    rw [Stream.startsClean_of_isSignificant hsignificant] at h
    cases h
  have hscan := Stream.scan_leading source false 0 fun hs => absurd hs hsignificant
  dsimp only at hscan
  rw [List.drop_zero, if_neg (by rw [h]; exact Bool.false_ne_true), Nat.zero_add, Stream.scan, List.head?_map] at hscan
  obtain ⟨t, ht, htoken⟩ := Option.map_eq_some_iff.1 hscan
  obtain ⟨rest, htokens⟩ := List.head?_eq_some_iff.1 ht
  have htokens : (Stream.ofSource source).tokens = t :: rest := htokens
  have hkind : t.token.kind = .indentation := congrArg Token.kind htoken
  have hnewLine : t.token.kind ≠ .newLine := by
    rw [hkind]
    exact Token.Kind.noConfusion
  rw [Program.ofSource]
  simp only [htokens, Reading.statements_cons _ hnewLine, Reading.nextStatement_eq, htoken]
  rfl

theorem takeWhile_isEmpty_append (h : before.all List.isEmpty = true) (hline : line ≠ []) :
    ((before ++ line :: after).takeWhile List.isEmpty).length = before.length := by
  have hnot : ¬ line.isEmpty = true := fun hnil => hline (List.isEmpty_iff.1 hnil)
  rw [List.takeWhile_append_of_pos (List.all_eq_true.1 h), List.takeWhile_cons_of_neg hnot, List.append_nil]

end

/-! ### Blank lines -/

theorem all_isBlank_expandTab {line : List Char} (h : line.all isBlank = true) :
    (expandTab line).all isBlank = true := by
  induction line with
  | nil => rfl
  | cons c rest ih =>
      rw [List.all_cons, Bool.and_eq_true] at h
      rw [expandTab]
      split
      · rw [List.all_cons, List.all_cons, List.all_cons, List.all_cons, h.2]
        decide
      · rw [List.all_cons, h.1, ih h.2]
        rfl

theorem expandTab_eq_nil_iff {line : List Char} : expandTab line = [] ↔ line = [] := by
  cases line with
  | nil => exact ⟨fun _ => rfl, fun _ => rfl⟩
  | cons c rest =>
      rw [expandTab]
      split
      · simp
      · simp

theorem isSignificant_of_all_isBlank {line : List Char} (h : line.all isBlank = true) : isSignificant line = false := by
  rw [isSignificant, h]
  rfl

/-- A blank line put in behind lines starts the text clean, unless these are empty and it starts with an
indentation. -/
theorem startsClean_insert_blank {before after : List (List Char)} {line : List Char} (h : line.all isBlank = true)
    (hclean : startsClean (before ++ after) = true) :
    startsClean (before ++ line :: after) = !(before.all List.isEmpty && indentUnit.isPrefixOf line) := by
  by_cases hempty : before.all List.isEmpty = true
  · have hall : ∀ l ∈ before, l = [] := by
      intro l hl
      exact List.isEmpty_iff.1 (List.all_eq_true.1 hempty l hl)
    rw [startsClean_append_of_all hall] at hclean ⊢
    rw [hempty, Bool.true_and, startsClean, isSignificant_of_all_isBlank h, Bool.false_or]
    split
    · rename_i hnil
      rw [List.isEmpty_iff.1 hnil, hclean]
      rfl
    · rfl
  · have hany : ∃ l ∈ before, l ≠ [] := by
      by_contra hnone
      push Not at hnone
      exact hempty (List.all_eq_true.2 fun l hl => List.isEmpty_iff.2 (hnone l hl))
    rw [startsClean_append_of_any hany, hclean, Bool.eq_false_iff.2 hempty]
    rfl

/-- A program with a blank line put in is the same program with the later lines moved down. Only in front of the
first line that is not empty a blank line may be refused: if it starts with an indentation, that is one too many. -/
theorem ofText_insert_blank {text text' : String} {before after : List (List Char)} {line : List Char}
    {program : Program} (h : Program.ofText text = .ok program) (hinserts : InsertsLine before line after text text')
    (hblank : line.all isBlank = true) :
    Program.ofText text' =
      if before.all List.isEmpty && indentUnit.isPrefixOf (expandTab line) then
        .error ⟨.strayIndentation, ⟨before.length, 0⟩⟩
      else .ok (Statement.relocateAll (Position.below before.length) program) := by
  have hread := ReadFrom.of_ofSource h
  have hinserts := hinserts.inserts
  have hblank := all_isBlank_expandTab hblank
  have hempty : (before.map expandTab).all List.isEmpty = before.all List.isEmpty := by
    rw [List.all_map]
    congr 1
    funext l
    rw [Bool.eq_iff_iff]
    simp only [Function.comp_apply, List.isEmpty_iff, expandTab_eq_nil_iff]
  have hclean := startsClean_insert_blank hblank (hinserts.lines ▸ hread.clean)
  rw [← hinserts.lines', hempty] at hclean
  rw [Program.ofText]
  split
  · rename_i hstray
    rw [hstray] at hclean
    rw [Bool.and_eq_true] at hstray
    have hline : expandTab line ≠ [] := by
      intro hnil
      rw [hnil] at hstray
      exact absurd hstray.2 (by decide)
    rw [ofSource_of_not_startsClean hclean, hinserts.lines', takeWhile_isEmpty_append (hempty.trans hstray.1) hline,
      List.length_map]
  · rename_i hstray
    rw [Bool.eq_false_iff.2 hstray] at hclean
    have hnothing : scanLine (Source.ofText text') (before.map expandTab).length = .nil := by
      rw [scanLine, hinserts.line_eq, isSignificant_of_all_isBlank hblank]
      rfl
    obtain ⟨front, inner, behind, hinsertion⟩ := hread.insertion hinserts hclean (by rw [hnothing]; rfl)
    have hinner : inner = [] := by
      have hmap := hinsertion.inner_eq
      rw [hnothing] at hmap
      exact List.map_eq_nil_iff.1 hmap
    rw [hinner] at hinsertion
    rw [hinsertion.ofSource_eq, List.length_map]

/-- A line of blanks and a tab between two lines, the second one moved. -/
theorem ofText_insert_blank_between :
    let text := "dopóki FAŁSZ wykonuj\n    wypisz 1\nwypisz 2"
    let text' := "dopóki FAŁSZ wykonuj\n     \t \n    wypisz 1\nwypisz 2"
    let before := ["dopóki FAŁSZ wykonuj".toList]
    let line := "     \t ".toList
    let after := ["    wypisz 1".toList, "wypisz 2".toList]
    ∃ program, Program.ofText text = .ok program ∧ InsertsLine before line after text text' ∧ line.all isBlank = true
      ∧ (Statement.listing 0 program).map (fun entry => (entry.1, entry.2.start))
        = [(0, ⟨0, 0⟩), (1, ⟨1, 4⟩), (0, ⟨2, 0⟩)]
      ∧ Program.ofText text' = .ok (Statement.relocateAll (Position.below 1) program) := by
  intro text text' before line after
  have hplaces : (Program.ofText text).map (fun program =>
      (Statement.listing 0 program).map fun entry => (entry.1, entry.2.start))
        = .ok [(0, ⟨0, 0⟩), (1, ⟨1, 4⟩), (0, ⟨2, 0⟩)] := by
    decide +kernel
  obtain ⟨program, h, hplaces⟩ := map_eq_ok.1 hplaces
  have hinserts : InsertsLine before line after text text' := ⟨by decide +kernel, by decide +kernel⟩
  have hblank : line.all isBlank = true := by decide +kernel
  exact ⟨program, h, hinserts, hblank, hplaces, ofText_insert_blank h hinserts hblank⟩

/-- Four blanks in front of a program of one line, which is refused then. -/
theorem not_ofText_insert_blank_first :
    let text := "wypisz 1"
    let text' := "    \nwypisz 1"
    let line := "    ".toList
    (∃ program, Program.ofText text = .ok program) ∧ InsertsLine [] line [text.toList] text text'
      ∧ line.all isBlank = true
      ∧ Program.ofText text' = .error ⟨.strayIndentation, ⟨0, 0⟩⟩ := by
  intro text text' line
  have hsome : (Program.ofText text).map (fun program => (Statement.listing 0 program).length) = .ok 1 := by
    decide +kernel
  obtain ⟨program, h, -⟩ := map_eq_ok.1 hsome
  have hclean : startsClean (Source.ofText text').lines = false := by decide +kernel
  have hlines : ((Source.ofText text').lines.takeWhile List.isEmpty).length = 0 := by decide +kernel
  refine ⟨⟨program, h⟩, ⟨by decide +kernel, by decide +kernel⟩, by decide +kernel, ?_⟩
  rw [Program.ofText, ofSource_of_not_startsClean hclean, hlines]

end PolishPseudocode
