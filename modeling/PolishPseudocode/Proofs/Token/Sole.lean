import PolishPseudocode.Proofs.Program.Spelling
import PolishPseudocode.Proofs.Token.LineEndings
import PolishPseudocode.Proofs.Token.Pulls
import PolishPseudocode.Proofs.Token.Rewinding

/-! Texts that are one token. Such a text has a single line, and the token takes it from the first character to the
last. The texts that are one number are the numerals, and those that are one name are the free names. -/

namespace PolishPseudocode

/-- The whole text is one token: the token starts at the first character, and behind it the cursor is where the text
ends. -/
def IsSoleToken (text : List Char) (kind : Token.Kind) : Prop :=
  ∃ c, Stream.ofSource (Source.ofText (String.ofList text)) = ⟨[⟨⟨kind, ⟨0, 0⟩⟩, c⟩], .finished c⟩

/-! ### Streams by their pulls -/

namespace Stream

variable {source : Source} {c after : Cursor}

theorem ofCursor_eq_finished_iff : ofCursor source c = ⟨[], .finished after⟩ ↔ c.next source = (.finished, after) := by
  rw [ofCursor]
  split <;> rename_i hnext <;> simp [hnext]

theorem ofCursor_eq_cons_iff {t : Lexed} {tokens : List Lexed} {ending : Ending} :
    ofCursor source c = ⟨t :: tokens, ending⟩
      ↔ c.next source = (.token t.token, t.after) ∧ ofCursor source t.after = ⟨tokens, ending⟩ := by
  constructor
  · intro h
    rw [ofCursor] at h
    split at h
    · rename_i hnext
      obtain ⟨htokens, hending⟩ := Stream.mk.inj h
      obtain ⟨rfl, hrest⟩ := List.cons.inj htokens
      exact ⟨hnext, congrArg₂ Stream.mk hrest hending⟩
    · cases h
    · cases h
  · rintro ⟨hnext, hrest⟩
    rw [ofCursor_of_next hnext, hrest]

end Stream

variable {text : List Char} {kind : Token.Kind}

theorem Source.lines_ofText_of_inline (h : ∀ c ∈ text, c ≠ '\n' ∧ c ≠ '\t') :
    (Source.ofText (String.ofList text)).lines = [text] := by
  have hline : splitLines text = [text] := splitLines_of_not_mem fun hmem => (h _ hmem).1 rfl
  rw [ofText, String.toList_ofList, hline, List.map_singleton, expandTab_of_not_mem fun hmem => (h _ hmem).2 rfl]

/-- The two pulls of a text that is one token: the second one finds the end. -/
theorem isSoleToken_iff_next :
    IsSoleToken text kind ↔ ∃ c, Cursor.start.next (Source.ofText (String.ofList text)) = (.token ⟨kind, ⟨0, 0⟩⟩, c)
      ∧ c.next (Source.ofText (String.ofList text)) = (.finished, c) := by
  refine exists_congr fun c => ?_
  rw [Stream.ofSource, Stream.ofCursor_eq_cons_iff, Stream.ofCursor_eq_finished_iff]

/-- A token that is neither layout nor a text is the lexeme recognised at its place. -/
theorem Cursor.HandsOut.exists_found {source : Source} {c after : Cursor} {t : Token} (h : c.HandsOut source t after)
    (hlayout : t.kind.isLayout = false) (htext : ∀ s, t.kind ≠ .text s) :
    ∃ found, Lexeme.recognise (c.rest source) = some found ∧ found.lexeme = .token t.kind ∧ t.position = c.position
      ∧ after = c.inLine.advance source found.length := by
  cases h with
  | newLine => cases hlayout
  | indentation => cases hlayout
  | text => exact absurd rfl (htext _)
  | lexeme hquote hfound hkind => exact ⟨_, hfound, hkind, rfl, rfl⟩

/-- A pull that gives nothing ends behind the last line. -/
theorem Cursor.hasMore_of_next_finished {source : Source} {c after : Cursor} (h : c.next source = (.finished, after)) :
    after.hasMore source = false := by
  fun_induction Cursor.next source c with
  | case1 => cases h
  | case2 c hmore line hbreak hempty ih => exact ih h
  | case3 => cases h
  | case4 c hmore line hbreak hempty hindent hquote =>
      rw [Cursor.readText] at h
      dsimp only at h
      split at h <;> cases h
  | case5 => cases h
  | case6 => cases h
  | case7 c hmore line hbreak hempty hindent hquote found hfound hkind ih => exact ih h
  | case8 c hmore =>
      cases h
      exact Bool.not_eq_true _ ▸ hmore

theorem lineFeed_notMem_of_length_splitLines (h : (splitLines text).length = 1) : '\n' ∉ text := by
  intro hmem
  obtain ⟨before, after, rfl⟩ := List.append_of_mem hmem
  have hbefore := List.length_pos_iff.2 (splitLines_ne_nil before)
  have hafter := List.length_pos_iff.2 (splitLines_ne_nil after)
  rw [splitLines_append, List.length_append] at h
  omega

/-- A cursor that comes from the first character to the end has moved over the only line. -/
theorem Cursor.length_lines_of_advance {source : Source} {c : Cursor} {count : Nat} (hposition : c.position = ⟨0, 0⟩)
    (hmore : c.hasMore source = true) (hend : (c.advance source count).hasMore source = false) :
    source.lines.length = 1 ∧ source.lineLength 0 ≤ count := by
  obtain ⟨hline, hcolumn⟩ := Position.mk.inj hposition
  have hless := line_lt_of_hasMore hmore
  rcases Nat.lt_or_ge (c.column + count) (source.lineLength c.line) with hlt | hge
  · rw [advance_of_lt hlt] at hend
    exact absurd (hmore.symm.trans hend) (by decide)
  · rw [advance_of_le hless hge] at hend
    rw [hasMore, Bool.and_eq_true] at hmore
    rw [hasMore, hmore.2, Bool.and_true, decide_eq_false_iff_not] at hend
    rw [hline, hcolumn] at hge
    dsimp only at hend
    exact ⟨by omega, by omega⟩

/-- A text that is one word or symbol is one line, and is recognised there as a whole. -/
theorem IsSoleToken.recognise_eq (h : IsSoleToken text kind) (hlayout : kind.isLayout = false)
    (htext : ∀ s, kind ≠ .text s) :
    '\n' ∉ text ∧ ∃ hpos, Lexeme.recognise (expandTab text) = some ⟨(expandTab text).length, .token kind, hpos⟩ := by
  obtain ⟨c, hfirst, hsecond⟩ := isSoleToken_iff_next.1 h
  obtain ⟨c', -, hmore, hout⟩ := Cursor.exists_handsOut hfirst
  obtain ⟨⟨count, lexeme, hpos⟩, hfound, htoken, hposition, rfl⟩ := hout.exists_found hlayout htext
  obtain rfl : lexeme = .token kind := htoken
  have hend := Cursor.hasMore_of_next_finished hsecond
  obtain ⟨hone, hle⟩ := Cursor.length_lines_of_advance (c := c'.inLine) hposition.symm hmore hend
  have hlines : (Source.ofText (String.ofList text)).lines = (splitLines text).map expandTab := by
    rw [Source.ofText, String.toList_ofList]
  rw [hlines, List.length_map] at hone
  have hinline := lineFeed_notMem_of_length_splitLines hone
  rw [splitLines_of_not_mem hinline] at hlines
  have hline : (Source.ofText (String.ofList text)).line 0 = expandTab text := by
    rw [Source.line, hlines]
    rfl
  have hrest : c'.rest (Source.ofText (String.ofList text)) = expandTab text := by
    obtain ⟨hzero, hcolumn⟩ := Position.mk.inj hposition
    rw [Cursor.rest, ← hzero, ← hcolumn, hline, List.drop_zero]
  have hcount := (Lexeme.matches_of_mem_candidates (by simp) (Lexeme.mem_candidates_of_recognise hfound)).1
  rw [hrest] at hfound hcount
  rw [Source.lineLength, hline] at hle
  obtain rfl : count = (expandTab text).length := Nat.le_antisymm hcount hle
  exact ⟨hinline, hpos, hfound⟩

/-- A word or symbol that is a whole text is one token. -/
theorem isSoleToken_of_recognise {c : Char} {cs : List Char} (hinline : ∀ b ∈ c :: cs, b ≠ '\n' ∧ b ≠ '\t')
    (hblank : isBlank c = false) (hquote : c ≠ '"')
    (h : ∃ hpos, Lexeme.recognise (c :: cs) = some ⟨(c :: cs).length, .token kind, hpos⟩) :
    IsSoleToken (c :: cs) kind := by
  obtain ⟨hpos, hfound⟩ := h
  have hlines := Source.lines_ofText_of_inline hinline
  rw [isSoleToken_iff_next]
  generalize Source.ofText (String.ofList (c :: cs)) = source at *
  have hlength : source.lines.length = 1 := congrArg List.length hlines
  have hline : source.line 0 = c :: cs := by
    rw [Source.line, hlines]
    rfl
  have hwhole : source.lineLength 0 = (c :: cs).length := congrArg List.length hline
  have hrest : Cursor.start.rest source = c :: cs := hline
  have hindent : indentUnit.isPrefixOf (c :: cs) = false := by
    rw [indentUnit, List.isPrefixOf_cons_cons, Bool.and_eq_false_iff, beq_eq_false_iff_ne]
    refine .inl ?_
    rintro rfl
    exact absurd hblank (by decide)
  have hfirst : Cursor.start.next source
      = (.token ⟨kind, ⟨0, 0⟩⟩, Cursor.start.inLine.advance source (c :: cs).length) := by
    have hcolumn : Cursor.start.column < source.lineLength Cursor.start.line := hpos.trans_eq hwhole.symm
    rw [Cursor.next_of_column_lt hcolumn rfl (by rw [hrest, hindent, Bool.and_false]), hrest,
      List.head?_cons, if_neg fun h => hquote (Option.some.inj h), hfound]
    rfl
  have hadvance : Cursor.start.inLine.advance source (c :: cs).length = ⟨1, 0, true, false, false⟩ :=
    Cursor.advance_of_le (c := Cursor.start.inLine) (hlength ▸ Nat.one_pos)
      (hwhole.trans_le (Nat.le_add_left _ _))
  have hend : ¬ Cursor.hasMore source ⟨1, 0, true, false, false⟩ = true := by
    rw [Cursor.hasMore, hlength]
    simp
  rw [hadvance] at hfirst
  refine ⟨_, hfirst, ?_⟩
  rw [Cursor.next, dif_neg hend]

theorem blank_mem_expandTab (h : '\t' ∈ text) : ' ' ∈ expandTab text := by
  induction text with
  | nil => cases h
  | cons c text ih =>
      rw [expandTab]
      split
      · exact List.mem_cons_self
      · rename_i hc
        exact List.mem_cons_of_mem c (ih (List.mem_of_ne_of_mem (Ne.symm hc) h))

/-- What a text that is one word or symbol matches; the text is no other than its line if no blank is in it. -/
theorem IsSoleToken.matches (h : IsSoleToken text kind) (hlayout : kind.isLayout = false)
    (htext : ∀ s, kind ≠ .text s) (hblank : ∀ word, Lexeme.Matches (.token kind) word → ' ' ∉ word) :
    Lexeme.Matches (.token kind) text := by
  obtain ⟨hinline, hpos, hfound⟩ := h.recognise_eq hlayout htext
  have hmatch : Lexeme.Matches (.token kind) ((expandTab text).take (expandTab text).length) :=
    (Lexeme.matches_of_mem_candidates (by simp) (Lexeme.mem_candidates_of_recognise hfound)).2
  rw [List.take_length] at hmatch
  have htab : '\t' ∉ text := fun htab => hblank _ hmatch (blank_mem_expandTab htab)
  rwa [expandTab_of_not_mem htab] at hmatch

theorem Numeral.mem_text (n : Numeral) {c : Char} (h : c ∈ n.text) : c.isDigit = true ∨ c = '.' := by
  rw [text] at h
  split at h
  · exact .inl (List.all_eq_true.1 n.all_whole c h)
  · rcases List.mem_append.1 h with h | h
    · exact .inl (List.all_eq_true.1 n.all_whole c h)
    · rcases List.mem_cons.1 h with rfl | h
      · exact .inr rfl
      · exact .inl (List.all_eq_true.1 n.all_fraction c h)

theorem Numeral.blank_notMem_text (n : Numeral) : ' ' ∉ n.text := fun h => absurd (n.mem_text h) (by decide)

/-- The texts that are one number are the numerals. -/
theorem isSoleToken_number_iff {x : Float} :
    IsSoleToken text (.number x) ↔ ∃ n : Numeral, n.text = text ∧ n.value = x := by
  constructor
  · intro h
    have hmatch := h.matches rfl (by simp) fun word hmatch => by
      cases hmatch with
      | fixed spelling => cases spelling
      | numeral n => exact n.blank_notMem_text
    cases hmatch with
    | fixed spelling => cases spelling
    | numeral n => exact ⟨n, rfl, rfl⟩
  · rintro ⟨n, rfl, rfl⟩
    have hfound : ∃ hpos, Lexeme.recognise (n.text ++ []) = some ⟨n.text.length, .token (.number n.value), hpos⟩ :=
      Lexeme.recognise_numeral n (by simp)
    have hinline := n.inline_text
    obtain ⟨c, cs, htext, hc⟩ := n.exists_text_eq_cons
    rw [List.append_nil] at hfound
    rw [htext] at hfound hinline ⊢
    refine isSoleToken_of_recognise hinline (isBlank_eq_false_of_isDigit hc) ?_ hfound
    rintro rfl
    exact absurd hc (by decide)

/-- The texts that are one name are the free names. -/
theorem isSoleToken_identifier_iff {name : String} :
    IsSoleToken text (.identifier name) ↔ isFreeName name = true ∧ name.toList = text := by
  constructor
  · intro h
    have hname : ∀ word, Lexeme.Matches (.token (.identifier name)) word → ' ' ∉ word := by
      intro word hmatch
      cases hmatch with
      | fixed spelling => cases spelling
      | name start all =>
          intro hmem
          rcases List.mem_cons.1 hmem with rfl | hmem
          · exact absurd start (by decide)
          · exact absurd (List.all_eq_true.1 all _ hmem) (by decide)
    have hmatch := h.matches rfl (by simp) hname
    obtain ⟨c, hstream⟩ := h
    have hmem : ⟨⟨.identifier name, ⟨0, 0⟩⟩, c⟩ ∈ (Stream.ofSource (Source.ofText (String.ofList text))).tokens := by
      rw [hstream]
      exact List.mem_singleton_self _
    refine ⟨Stream.isFreeName_of_mem hmem rfl, ?_⟩
    rw [hmatch.eq_name, String.toList_ofList]
  · rintro ⟨hfree, rfl⟩
    have hfound : ∃ hpos, Lexeme.recognise (name.toList ++ [])
        = some ⟨name.toList.length, .token (.identifier name), hpos⟩ := Lexeme.recognise_name hfree rfl
    obtain ⟨c, cs, hchars, hstart, hall, -⟩ := Lexeme.exists_of_isFreeName hfree
    rw [List.append_nil] at hfound
    rw [hchars] at hfound ⊢
    refine isSoleToken_of_recognise (fun b hb => inline_of_isNameChar (List.all_eq_true.1 hall b hb))
      (isBlank_eq_false_of_isNameStart hstart) ?_ hfound
    rintro rfl
    exact absurd hstart (by decide)

end PolishPseudocode
