import PolishPseudocode.Proofs.Program.Concatenation
import PolishPseudocode.Proofs.Token.LineEndings

/-! Programs whose lines end in a carriage return and a line feed. They are read as the same programs at the same
places, unless a line ends in the word that returns from a function: then the carriage return is not passed over as a
blank behind it, and the text is refused. -/

namespace PolishPseudocode

/-- Whether a line that another one follows ends in the word that returns from a function, with nothing behind it. -/
def Source.ReturnsBare (source : Source) : Prop :=
  ∃ t ∈ (Stream.ofSource source).tokens, t.token.ReturnsBare source

instance (source : Source) : Decidable source.ReturnsBare :=
  inferInstanceAs (Decidable (∃ t ∈ (Stream.ofSource source).tokens, t.token.ReturnsBare source))

namespace ReadFrom

variable {source : Source} {program : Program}

/-- The tokens of the source with a carriage return at the end of each line but the last one. -/
theorem refusedAt_withReturns (h : ReadFrom source program) (hinline : ∀ i, '\n' ∉ source.line i) :
    (⟨(Stream.ofSource source).tokens.map Lexed.token, none⟩ : Scan).RefusedAt (Token.ReturnsBare source)
      (Stream.ofSource source.withReturns).scan := by
  have hclean : startsClean source.withReturns.lines = true := startsClean_returnLines h.clean
  have hlength : source.withReturns.lines.length = source.lines.length := length_returnLines source.lines
  rw [Stream.scan_ofSource_of_startsClean hclean, hlength, ← h.scan_eq]
  exact Source.scanLines_withReturns hinline (by rw [h.scan_eq])

theorem withReturns (h : ReadFrom source program) (hinline : ∀ i, '\n' ∉ source.line i)
    (hbare : ¬ source.ReturnsBare) : ReadFrom source.withReturns program := by
  have hnone : ∀ t ∈ (Stream.ofSource source).tokens.map Lexed.token, ¬ t.ReturnsBare source := by
    rw [List.forall_mem_map]
    exact fun t ht htoken => hbare ⟨t, ht, htoken⟩
  have hscan := (h.refusedAt_withReturns hinline).same hnone
  have hfinished : ∃ c, (Stream.ofSource source.withReturns).ending = .finished c :=
    Stream.finished_of_scan (congrArg Scan.error hscan)
  obtain ⟨c, hending⟩ := h.finished
  obtain ⟨c', hending'⟩ := hfinished
  exact ⟨Reading.statements_of_tokens_eq (Reading.endsAlike_of_finished hending hending') h.statements
    (congrArg Scan.tokens hscan), ⟨c', hending'⟩, startsClean_returnLines h.clean⟩

theorem exists_error_of_returnsBare (h : ReadFrom source program) (hinline : ∀ i, '\n' ∉ source.line i)
    (hbare : source.ReturnsBare) : ∃ e, Program.ofSource source.withReturns = .error e := by
  obtain ⟨t, ht, htoken⟩ := hbare
  obtain ⟨e, herror⟩ := (h.refusedAt_withReturns hinline).refused t.token (List.mem_map_of_mem ht) htoken
  cases hprogram : Program.ofSource source.withReturns with
  | error e' => exact ⟨e', rfl⟩
  | ok program' =>
      -- A text from which a program is read has no error among its tokens.
      obtain ⟨c, hending⟩ := (of_ofSource hprogram).finished
      rw [Stream.scan, hending] at herror
      cases herror

end ReadFrom

/-- A program with a carriage return in front of every line feed is the same program with the same places, unless one
of its lines ends in the word that returns from a function: then it is refused. -/
theorem ofText_withReturns {text : String} {program : Program} (h : Program.ofText text = .ok program) :
    (¬ (Source.ofText text).ReturnsBare
      → Program.ofText (String.ofList (withReturns text.toList)) = .ok program)
    ∧ ((Source.ofText text).ReturnsBare
      → ∃ e, Program.ofText (String.ofList (withReturns text.toList)) = .error e) := by
  have hread := ReadFrom.of_ofSource h
  have hinline := Source.lineFeed_notMem_line_ofText text
  rw [Program.ofText, Source.ofText_ofList_withReturns]
  exact ⟨fun hbare => (hread.withReturns hinline hbare).ofSource_eq, hread.exists_error_of_returnsBare hinline⟩

/-- A function that gives a text back in front of a comment, behind lines that say nothing; and one that gives nothing
back. -/
theorem ofText_withReturns_function :
    let text := "funkcja f()\n\n    # nic\n    zwróć \"a\" # b\nwypisz f()"
    let bare := "funkcja f()\n    zwróć\nf()"
    ∃ program program', Program.ofText text = .ok program ∧ ¬ (Source.ofText text).ReturnsBare
      ∧ (Statement.listing 0 program).map (fun entry => (entry.1, entry.2.start))
        = [(0, ⟨0, 0⟩), (1, ⟨3, 4⟩), (0, ⟨4, 0⟩)]
      ∧ Program.ofText (String.ofList (withReturns text.toList)) = .ok program
      ∧ Program.ofText bare = .ok program' ∧ (Source.ofText bare).ReturnsBare
      ∧ ∃ e, Program.ofText (String.ofList (withReturns bare.toList)) = .error e := by
  intro text bare
  have hplaces : (Program.ofText text).map (fun program =>
      (Statement.listing 0 program).map fun entry => (entry.1, entry.2.start))
        = .ok [(0, ⟨0, 0⟩), (1, ⟨3, 4⟩), (0, ⟨4, 0⟩)] := by
    decide +kernel
  have hlength : (Program.ofText bare).map List.length = .ok 2 := by decide +kernel
  obtain ⟨program, h, hplaces⟩ := map_eq_ok.1 hplaces
  obtain ⟨program', h', -⟩ := map_eq_ok.1 hlength
  have hgoes : ¬ (Source.ofText text).ReturnsBare := by decide +kernel
  have hbare : (Source.ofText bare).ReturnsBare := by decide +kernel
  exact ⟨program, program', h, hgoes, hplaces, (ofText_withReturns h).1 hgoes, h', hbare,
    (ofText_withReturns h').2 hbare⟩

/-- A program without carriage returns in which a function gives nothing back. With a carriage return at the end of
that line it is refused there. -/
theorem not_ofText_withReturns_bare :
    let text := "funkcja f()\n    zwróć\nf()"
    let text' := "funkcja f()\r\n    zwróć\r\nf()"
    '\r' ∉ text.toList ∧ (∃ program, Program.ofText text = .ok program)
      ∧ String.ofList (withReturns text.toList) = text'
      ∧ Program.ofText text' = .error ⟨.unknownToken "zwróć\r", ⟨1, 4⟩⟩ := by
  intro text text'
  have hlength : (Program.ofText text).map List.length = .ok 2 := by decide +kernel
  obtain ⟨program, h, -⟩ := map_eq_ok.1 hlength
  have herror : (match Program.ofText text' with
      | .error e => some e
      | .ok _ => none) = some ⟨.unknownToken "zwróć\r", ⟨1, 4⟩⟩ := by
    decide +kernel
  refine ⟨by decide +kernel, ⟨program, h⟩, by decide +kernel, ?_⟩
  cases hprogram : Program.ofText text' with
  | error e =>
      rw [hprogram] at herror
      exact congrArg Except.error (Option.some.inj herror)
  | ok program' =>
      rw [hprogram] at herror
      cases herror

end PolishPseudocode
