import PolishPseudocode.Proofs.Program.Seams
import PolishPseudocode.Proofs.Program.Relocation
import PolishPseudocode.Proofs.Token.Concatenation

/-! Programs one behind the other. A text that is a program, followed by a line feed and another one, is the program
of both: where the first text ended, there is now a line break or nothing, and the lines of the second give the
same tokens further down. -/

namespace PolishPseudocode

/-- A text from which a program is read consists of tokens to its end. -/
theorem Reading.finished_of_statements {r : Reading} {tokens : List Lexed} {program : Program}
    (hsettled : r.settle tokens = .ok ()) (h : r.statements tokens = .ok program) :
    ∃ c, r.ending = .finished c := by
  let r' : Reading := ⟨r.source, .finished .start⟩
  have hr' : r'.Settles := settle_of_finished rfl
  have hnothing : r'.Resumes [] [] := ⟨rfl, by rw [statements]⟩
  have htrail := statements_trail hr' hnothing hsettled
  rw [h] at htrail
  obtain ⟨-, -, -, hend⟩ := htrail.exists_of_ok
  cases hending : r.ending with
  | finished c => exact ⟨c, rfl⟩
  | failed e =>
      unfold settle at hend
      rw [hending] at hend
      cases hend

/-- A source that consists of tokens to its end is read from its first token on. -/
theorem Program.ofSource_of_finished {source : Source} {c : Cursor}
    (h : (Stream.ofSource source).ending = .finished c) :
    Program.ofSource source
      = Reading.statements ⟨source, (Stream.ofSource source).ending⟩ (Stream.ofSource source).tokens := by
  have hsettled : Reading.settle ⟨source, (Stream.ofSource source).ending⟩ (Stream.ofSource source).tokens
      = .ok () :=
    Reading.settle_of_finished h _
  rw [Program.ofSource]
  simp only [hsettled]
  rfl

/-- Tokens without an error go on to the end. -/
theorem Stream.finished_of_scan {stream : Stream} (h : stream.scan.error = none) :
    ∃ c, stream.ending = .finished c := by
  rw [scan] at h
  cases hending : stream.ending with
  | finished c => exact ⟨c, rfl⟩
  | failed e =>
      rw [hending] at h
      cases h

/-- A program is read from a source: the source consists of the tokens of its lines, to its end. -/
structure ReadFrom (source : Source) (program : Program) : Prop where
  statements : Reading.statements ⟨source, (Stream.ofSource source).ending⟩ (Stream.ofSource source).tokens
    = .ok program
  finished : ∃ c, (Stream.ofSource source).ending = .finished c
  clean : startsClean source.lines = true

namespace ReadFrom

variable {source : Source} {program : Program}

theorem of_ofSource (h : Program.ofSource source = .ok program) : ReadFrom source program := by
  rw [Program.ofSource, bind_eq_ok] at h
  obtain ⟨_, hsettled, h⟩ := h
  exact ⟨h, Reading.finished_of_statements hsettled h,
    Stream.startsClean_of_head (Reading.head_of_statements _ h)⟩

theorem ofSource_eq (h : ReadFrom source program) : Program.ofSource source = .ok program := by
  obtain ⟨c, hending⟩ := h.finished
  rw [Program.ofSource_of_finished hending]
  exact h.statements

theorem scan_eq (h : ReadFrom source program) :
    scanLines source source.lines.length 0 = ⟨(Stream.ofSource source).tokens.map Lexed.token, none⟩ := by
  obtain ⟨c, hending⟩ := h.finished
  rw [← Stream.scan_ofSource_of_startsClean h.clean, Stream.scan, hending]

end ReadFrom

/-- Both readings go on to the end of their texts. -/
theorem Reading.endsAlike_of_finished {r r' : Reading} {c c' : Cursor} (h : r.ending = .finished c)
    (h' : r'.ending = .finished c') : r.EndsAlike r' := by
  rw [EndsAlike, h, h']
  trivial

/-- Tokens of which none is moved are read as the same statements. -/
theorem Reading.statements_of_tokens_eq {r r' : Reading} (hends : r.EndsAlike r') {tokens tokens' : List Lexed}
    {program : Program} (h : r.statements tokens = .ok program)
    (htokens : tokens'.map Lexed.token = tokens.map Lexed.token) : r'.statements tokens' = .ok program := by
  have hmoved := statements_moved (f := id) hends htokens
  rw [h] at hmoved
  obtain ⟨_, hprogram, rfl⟩ := hmoved.exists_of_ok
  rwa [Statement.relocateAll_id] at hprogram

section

variable {whole front back : Source} {program program' : Program}

/-- The statements of a text are read further down where it stands behind another one. -/
theorem ReadFrom.resumes {r : Reading} {c : Cursor} (hr : r.ending = .finished c) (h : ReadFrom back program)
    {count : Nat} {more : List Lexed}
    (hmore : more.map Lexed.token = back.firstBreak count
      ++ ((Stream.ofSource back).tokens.map Lexed.token).map (Token.relocate (Position.down count))) :
    r.Resumes (Statement.relocateAll (Position.down count) program) more := by
  obtain ⟨c', hending⟩ := h.finished
  have hends : Reading.EndsAlike ⟨back, (Stream.ofSource back).ending⟩ r :=
    Reading.endsAlike_of_finished hending hr
  have hread {more : List Lexed} (hmoved : Moved (Position.down count) (Stream.ofSource back).tokens more) :
      r.statements more = .ok (Statement.relocateAll (Position.down count) program) := by
    have hagree := Reading.statements_moved hends hmoved
    rw [h.statements] at hagree
    obtain ⟨_, hprogram, rfl⟩ := hagree.exists_of_ok
    exact hprogram
  rw [List.map_map] at hmore
  by_cases hfirst : isSignificant (back.line 0) = true
  · rw [Source.firstBreak, if_pos hfirst] at hmore
    obtain ⟨nl, more, rfl, hnl, hmoved⟩ := List.map_eq_cons_iff.1 hmore
    exact .cons (Reading.settle_of_finished hr) (congrArg Token.kind hnl) (hread hmoved)
  · rw [Source.firstBreak, if_neg hfirst] at hmore
    refine ⟨?_, hread hmore⟩
    -- The first token of the other lines is a line break, wherever they are.
    have hhead := newLine_of_mem_head_of_not_isSignificant (Bool.eq_false_iff.2 hfirst) back.lines.length
    rw [h.scan_eq] at hhead
    cases htokens : (Stream.ofSource back).tokens with
    | nil =>
        rw [htokens] at hmore
        rw [List.map_eq_nil_iff.1 hmore]
        rfl
    | cons next tokens =>
        rw [htokens] at hmore hhead
        obtain ⟨next', more, rfl, hnext, -⟩ := List.map_eq_cons_iff.1 hmore
        have hkind : next'.token.kind = .newLine := (congrArg Token.kind hnext).trans (hhead next.token rfl)
        exact beq_iff_eq.2 hkind

/-- Two texts that are programs, one behind the other. -/
theorem ReadFrom.append (h : ReadFrom front program) (h' : ReadFrom back program')
    (hlines : whole.lines = front.lines ++ back.lines) (hfront : front.lines ≠ []) (hback : back.lines ≠ []) :
    ReadFrom whole (program ++ Statement.relocateAll (Position.down front.lines.length) program') := by
  have hclean : startsClean whole.lines = true := by
    rw [hlines]
    exact startsClean_append h.clean h'.clean
  have hscan : (Stream.ofSource whole).scan = _ := Stream.scan_ofSource_of_startsClean hclean
  rw [Source.scanLines_append hlines (List.length_pos_iff.2 hfront) (List.length_pos_iff.2 hback)
    (by rw [h.scan_eq]) (by rw [h'.scan_eq]), h.scan_eq, h'.scan_eq] at hscan
  have hfinished : ∃ c, (Stream.ofSource whole).ending = .finished c :=
    Stream.finished_of_scan (congrArg Scan.error hscan)
  have htokens : (Stream.ofSource whole).tokens.map Lexed.token = (Stream.ofSource front).tokens.map Lexed.token
      ++ (back.firstBreak front.lines.length ++ ((Stream.ofSource back).tokens.map Lexed.token).map
        (Token.relocate (Position.down front.lines.length))) :=
    congrArg Scan.tokens hscan
  obtain ⟨first, more, hsplit, hfirst, hmore⟩ := List.map_eq_append_iff.1 htokens
  refine ⟨?_, hfinished, hclean⟩
  obtain ⟨c, hending⟩ := h.finished
  obtain ⟨c', hending'⟩ := hfinished
  let r : Reading := ⟨whole, (Stream.ofSource whole).ending⟩
  have hr : r.Settles := Reading.settle_of_finished hending'
  have hbefore : r.statements first = .ok program :=
    Reading.statements_of_tokens_eq (Reading.endsAlike_of_finished hending hending') h.statements hfirst
  have hall := Reading.statements_trail hr (h'.resumes hending' hmore) (hr first)
  rw [hbefore] at hall
  obtain ⟨_, hall, rfl, -⟩ := hall.exists_of_ok
  rw [hsplit]
  exact hall

end

/-- The program of two texts with a line feed between them is that of the first text, and behind it that of the
second one, moved down by the lines of the first. -/
theorem ofText_append {text text' : String} {program program' : Program} (h : Program.ofText text = .ok program)
    (h' : Program.ofText text' = .ok program') :
    Program.ofText (text ++ "\n" ++ text')
      = .ok (program ++ Statement.relocateAll (Position.down (Source.ofText text).lines.length) program') := by
  have hlines := Source.lines_ofText_append text text'
  exact ((ReadFrom.of_ofSource h).append (ReadFrom.of_ofSource h') hlines (Source.lines_ofText_ne_nil text)
    (Source.lines_ofText_ne_nil text')).ofSource_eq

/-- The first text ends inside two blocks and with an indented comment, the second one starts with a comment. -/
theorem ofText_append_comments :
    let text := "funkcja f()\n    dopóki PRAWDA wykonuj\n        zwróć\n    # koniec"
    let text' := "# dalej\njeżeli PRAWDA to\n    f()"
    ∃ program program', Program.ofText text = .ok program ∧ Program.ofText text' = .ok program'
      ∧ (Statement.listing 0 program).map (fun entry => (entry.1, entry.2.start))
        = [(0, ⟨0, 0⟩), (1, ⟨1, 4⟩), (2, ⟨2, 8⟩)]
      ∧ (Statement.listing 0 program').map (fun entry => (entry.1, entry.2.start)) = [(0, ⟨1, 0⟩), (1, ⟨2, 4⟩)]
      ∧ Program.ofText (text ++ "\n" ++ text')
        = .ok (program ++ Statement.relocateAll (Position.down 4) program') := by
  intro text text'
  have hplaces : (Program.ofText text).map (fun program =>
      (Statement.listing 0 program).map fun entry => (entry.1, entry.2.start))
        = .ok [(0, ⟨0, 0⟩), (1, ⟨1, 4⟩), (2, ⟨2, 8⟩)] := by
    decide +kernel
  have hplaces' : (Program.ofText text').map (fun program =>
      (Statement.listing 0 program).map fun entry => (entry.1, entry.2.start))
        = .ok [(0, ⟨1, 0⟩), (1, ⟨2, 4⟩)] := by
    decide +kernel
  have hlines : (Source.ofText text).lines.length = 4 := by decide +kernel
  obtain ⟨program, h, hplaces⟩ := map_eq_ok.1 hplaces
  obtain ⟨program', h', hplaces'⟩ := map_eq_ok.1 hplaces'
  have happend := ofText_append h h'
  rw [hlines] at happend
  exact ⟨program, program', h, h', hplaces, hplaces', happend⟩

end PolishPseudocode
