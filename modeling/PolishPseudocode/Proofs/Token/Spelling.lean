import PolishPseudocode.Proofs.Token.Lines

/-! Words as they are written. A word of any sort that is followed by a blank, a bracket, a comma or the end
of its line is read as one token; a bracket, a comma or a minus is one whatever follows. So the tokens of a
line can be read off its text word by word. -/

namespace PolishPseudocode

/-! ### Names and numerals -/

/-- A letter or underscore and then letters, digits and underscores, but no word with a role of its own. -/
def isFreeName (name : String) : Bool :=
  match name.toList with
  | [] => false
  | c :: cs => isNameStart c && cs.all isNameChar && !Lexeme.fixed.any (·.1 == c :: cs)

/-- A numeral: decimal digits before the point, at least one, and digits behind it. -/
structure Numeral where
  whole : List Char
  fraction : List Char
  whole_ne_nil : whole ≠ []
  all_whole : whole.all Char.isDigit = true
  all_fraction : fraction.all Char.isDigit = true

namespace Numeral

def text (n : Numeral) : List Char :=
  if n.fraction.isEmpty then n.whole else n.whole ++ '.' :: n.fraction

def value (n : Numeral) : Float :=
  numeralValue n.whole n.fraction

theorem exists_text_eq_cons (n : Numeral) : ∃ c cs, n.text = c :: cs ∧ c.isDigit = true := by
  obtain ⟨c, cs, hwhole⟩ := List.exists_cons_of_ne_nil n.whole_ne_nil
  have hc : c.isDigit = true := List.all_eq_true.1 n.all_whole c (by rw [hwhole]; simp)
  rw [text, hwhole]
  split
  · exact ⟨c, cs, rfl, hc⟩
  · exact ⟨c, _, rfl, hc⟩

end Numeral

/-! ### Ends of words -/

/-- Whether a character ends every word in front of it. -/
def isBreak (c : Char) : Bool :=
  [' ', '(', ')', '[', ']', ','].contains c

/-- Whether what follows on the line ends every name in front of it. A name and the second word of "otherwise"
would be taken together. -/
def delimits : List Char → Bool
  | ' ' :: c :: _ => c != 'p'
  | rest => rest.head?.all isBreak

theorem isBreak_of_delimits {rest : List Char} (h : delimits rest = true) :
    ∀ c ∈ rest.head?, isBreak c = true := by
  intro c hc
  unfold delimits at h
  split at h
  · cases hc
    rfl
  · rw [Option.mem_def.1 hc] at h
    exact h

theorem isNameChar_of_isBreak {c : Char} (h : isBreak c = true) : isNameChar c = false := by
  simp only [isBreak, List.contains_eq_mem, List.mem_cons, List.not_mem_nil, or_false, decide_eq_true_eq] at h
  rcases h with rfl | rfl | rfl | rfl | rfl | rfl <;> decide

theorem isDigit_of_isBreak {c : Char} (h : isBreak c = true) : c.isDigit = false ∧ c ≠ '.' := by
  simp only [isBreak, List.contains_eq_mem, List.mem_cons, List.not_mem_nil, or_false, decide_eq_true_eq] at h
  rcases h with rfl | rfl | rfl | rfl | rfl | rfl <;> decide

/-- A run of a class ends where the class does. -/
theorem takeWhile_append_of_head {p : Char → Bool} {word rest : List Char} (hword : word.all p = true)
    (hrest : ∀ c ∈ rest.head?, p c = false) : (word ++ rest).takeWhile p = word := by
  rw [List.takeWhile_append_of_pos (List.all_eq_true.1 hword)]
  cases rest with
  | nil => simp
  | cons c rest =>
      have hc := hrest c rfl
      simp [hc]

namespace Lexeme

/-! ### The longest candidate -/

/-- The first of the longest candidates is the longest. -/
theorem longest_of_split {before after : List (Nat × Lexeme)} {x : Nat × Lexeme}
    (hbefore : ∀ y ∈ before, y.1 < x.1) (hafter : ∀ y ∈ after, y.1 ≤ x.1) :
    longest (before ++ x :: after) = some x := by
  induction before with
  | nil =>
      rw [List.nil_append, longest]
      cases hbest : longest after with
      | none => rfl
      | some best => simp [Nat.not_lt.2 (hafter best (mem_of_longest hbest))]
  | cons y before ih =>
      obtain ⟨hy, hbefore⟩ := List.forall_mem_cons.1 hbefore
      rw [List.cons_append, longest, ih hbefore]
      simp [hy]

/-! ### Fixed words -/

theorem eq_of_mem_fixed : ∀ x ∈ fixed, ∀ y ∈ fixed, x.1 = y.1 → x = y := by
  decide +kernel

/-- No fixed word goes on as another one does behind a break. -/
theorem fixed_unextended : ∀ x ∈ fixed, ∀ y ∈ fixed,
    [' ', '(', ')', '[', ']', ','].all (fun c => !(x.1 ++ [c]).isPrefixOf y.1) = true := by
  decide +kernel

/-- A fixed word with no longer one at its place is recognised. -/
theorem recognise_of_fixed {word rest : List Char} {kind : Token.Kind} (hmem : (word, kind) ∈ fixed)
    (hfixed : ∀ y ∈ fixed, y.1 <+: word ++ rest → y.1.length ≤ word.length)
    (hname : (identifierMatch (word ++ rest)).1 ≤ word.length)
    (hnext : rest.head?.all ((token kind).mayPrecede ·) = true) :
    ∃ hpos, recognise (word ++ rest) = some ⟨word.length, .token kind, hpos⟩ := by
  obtain ⟨first, word', rfl⟩ := List.exists_cons_of_ne_nil (fixed_ne_nil _ hmem)
  obtain ⟨hblank, hhash, -, hdigit⟩ := fixed_head _ hmem first rfl
  have hpos : 0 < (first :: word').length := by simp
  refine ⟨hpos, recognise_of_longest ?_ hpos (by rw [List.drop_left]; exact hnext)⟩
  have hmatch : ((first :: word').length, token kind)
      ∈ (fixed.filter fun x => x.1.isPrefixOf (first :: word' ++ rest)).map
        fun x => (x.1.length, token x.2) := by
    refine List.mem_map.2 ⟨(first :: word', kind), List.mem_filter.2 ⟨hmem, ?_⟩, rfl⟩
    exact List.isPrefixOf_iff_prefix.2 (List.prefix_append _ _)
  obtain ⟨before, after, hsplit, hbefore⟩ := List.eq_append_cons_of_mem hmatch
  -- Another match as long as this one would be the same word.
  have hcompare : ∀ y ∈ before ++ ((first :: word').length, token kind) :: after,
      y = ((first :: word').length, token kind) ∨ y.1 < (first :: word').length := by
    intro y hy
    rw [← hsplit] at hy
    obtain ⟨x, hx, rfl⟩ := List.mem_map.1 hy
    obtain ⟨hx, hstarts⟩ := List.mem_filter.1 hx
    have hstarts := List.isPrefixOf_iff_prefix.1 hstarts
    rcases Nat.lt_or_ge x.1.length (first :: word').length with hlt | hge
    · exact .inr hlt
    · have hlength := Nat.le_antisymm (hfixed x hx hstarts) hge
      have hword : x.1 = first :: word' := by
        rw [List.prefix_iff_eq_take.1 hstarts, hlength, List.take_left]
      have hsame := eq_of_mem_fixed x hx _ hmem hword
      rw [hsame]
      exact .inl rfl
  have hothers : ∀ y ∈ [blankMatch (first :: word' ++ rest), commentMatch (first :: word' ++ rest),
      numeralMatch (first :: word' ++ rest), identifierMatch (first :: word' ++ rest)].filter (0 < ·.1),
      y.1 ≤ (first :: word').length := by
    intro y hy
    have hzero : (blankMatch (first :: word' ++ rest)).1 = 0 ∧ (commentMatch (first :: word' ++ rest)).1 = 0
        ∧ (numeralMatch (first :: word' ++ rest)).1 = 0 :=
      ⟨blankMatch_eq_zero hblank, commentMatch_eq_zero hhash, numeralMatch_eq_zero hdigit⟩
    simp only [List.mem_filter, List.mem_cons, List.not_mem_nil, or_false] at hy
    rcases hy with ⟨rfl | rfl | rfl | rfl, -⟩ <;> omega
  rw [candidates]
  change longest ((fixed.filter fun x => x.1.isPrefixOf (first :: word' ++ rest)).map
    (fun x => (x.1.length, token x.2)) ++ _) = _
  rw [hsplit, List.append_assoc, List.cons_append]
  refine longest_of_split ?_ ?_
  · intro y hy
    rcases hcompare y (List.mem_append_left _ hy) with rfl | hlt
    · exact absurd hy hbefore
    · exact hlt
  · intro y hy
    rcases List.mem_append.1 hy with hy | hy
    · rcases hcompare y (List.mem_append_right _ (List.mem_cons_of_mem _ hy)) with rfl | hlt
      · exact Nat.le_refl _
      · exact Nat.le_of_lt hlt
    · exact hothers y hy

theorem length_identifierMatch_le {word rest : List Char} (hrest : ∀ c ∈ rest.head?, isNameChar c = false) :
    (identifierMatch (word ++ rest)).1 ≤ word.length := by
  rw [identifierMatch]
  dsimp only
  split
  · by_cases hword : word.all isNameChar = true
    · rw [takeWhile_append_of_head hword hrest]
    · have hshort :
          ((word ++ rest).takeWhile isNameChar).length < (word.takeWhile isNameChar).length + 1 := by
        rw [List.takeWhile_append]
        split
        · rename_i hall
          refine absurd ?_ hword
          rw [List.all_eq_true]
          exact List.takeWhile_eq_self_iff.1 ((List.takeWhile_prefix isNameChar).eq_of_length hall)
        · exact Nat.lt_succ_self _
      have := (List.takeWhile_prefix (l := word) isNameChar).length_le
      omega
  · exact Nat.zero_le _

/-- A fixed word in front of a break is recognised. The word that returns from a function wants a blank. -/
theorem recognise_fixed {word rest : List Char} {kind : Token.Kind} (hmem : (word, kind) ∈ fixed)
    (hrest : ∀ c ∈ rest.head?, isBreak c = true ∧ (kind = .keyword .return_ → c = ' ')) :
    ∃ hpos, recognise (word ++ rest) = some ⟨word.length, .token kind, hpos⟩ := by
  refine recognise_of_fixed hmem ?_ ?_ ?_
  · intro y hy hstarts
    by_contra hlong
    have hlong := Nat.lt_of_not_le hlong
    -- A longer word would go on with the break.
    cases rest with
    | nil =>
        have := hstarts.length_le
        rw [List.append_nil] at this
        omega
    | cons c rest =>
        have hbreak : c ∈ [' ', '(', ')', '[', ']', ','] := by
          simpa [isBreak] using (hrest c rfl).1
        have hword : word ++ [c] <+: word ++ c :: rest := ⟨rest, by simp⟩
        have hlonger : word ++ [c] <+: y.1 :=
          List.prefix_of_prefix_length_le hword hstarts (by rw [List.length_append]; exact hlong)
        have hnone := List.all_eq_true.1 (fixed_unextended _ hmem y hy) c hbreak
        rw [List.isPrefixOf_iff_prefix.2 hlonger] at hnone
        cases hnone
  · exact length_identifierMatch_le fun c hc => isNameChar_of_isBreak (hrest c hc).1
  · cases rest with
    | nil => rfl
    | cons c rest =>
        obtain ⟨hbreak, hreturn⟩ := hrest c rfl
        have hname := isNameChar_of_isBreak hbreak
        simp only [List.head?_cons, Option.all_some, mayPrecede, hname, Bool.and_false, Bool.not_false,
          Bool.true_and, Bool.or_eq_true, bne_iff_ne, beq_iff_eq]
        by_cases hkind : kind = .keyword .return_
        · exact .inr (hreturn hkind)
        · refine .inl fun heq => hkind ?_
          cases heq
          rfl

/-- A symbol that starts no other fixed word is recognised whatever follows. -/
theorem recognise_symbol {c : Char} {kind : Token.Kind} (hmem : ([c], kind) ∈ fixed)
    (hsole : ∀ y ∈ fixed, c ∈ y.1.head? → y.1 = [c]) (hstart : isNameStart c = false)
    (hword : (token kind).isWordLike = false) (hreturn : kind ≠ .keyword .return_) (rest : List Char) :
    ∃ hpos, recognise (c :: rest) = some ⟨1, .token kind, hpos⟩ := by
  change ∃ hpos, recognise ([c] ++ rest) = some ⟨[c].length, _, hpos⟩
  refine recognise_of_fixed hmem ?_ ?_ ?_
  · intro y hy hstarts
    obtain ⟨first, word, hfirst⟩ := List.exists_cons_of_ne_nil (fixed_ne_nil y hy)
    rw [hfirst] at hstarts
    have hc : c ∈ y.1.head? := by
      rw [hfirst, (List.cons_prefix_cons.1 hstarts).1]
      rfl
    rw [hsole y hy hc]
  · exact Nat.le_trans (Nat.le_of_eq (identifierMatch_eq_zero hstart)) (Nat.zero_le _)
  · cases rest.head? with
    | none => rfl
    | some next =>
        have hkind : token kind ≠ token (.keyword .return_) := fun heq => hreturn (by cases heq; rfl)
        simp [mayPrecede, hword, hkind]

/-! ### Names -/

/-- A fixed word that starts as a name does and goes on with a break is the word for "otherwise". -/
theorem fixed_with_break : ∀ x ∈ fixed,
    (x.1.drop (x.1.takeWhile isNameChar).length).head?.any isBreak = true →
      x.1.takeWhile isNameChar = [] ∨ x.1 = Keyword.else_.spelling.toList := by
  decide +kernel

theorem length_fixed_lt_of_name {word rest : List Char} (hword : word.all isNameChar = true)
    (hne : word ≠ []) (hfree : ∀ y ∈ fixed, y.1 ≠ word) (hrest : delimits rest = true)
    {y : List Char × Token.Kind} (hy : y ∈ fixed) (hstarts : y.1 <+: word ++ rest) : y.1.length < word.length := by
  by_contra hlong
  have hlong := Nat.le_of_not_lt hlong
  obtain ⟨tail, htail⟩ : word <+: y.1 :=
    List.prefix_of_prefix_length_le (List.prefix_append _ _) hstarts hlong
  cases tail with
  | nil => exact hfree y hy (by rw [← htail, List.append_nil])
  | cons b tail =>
      rw [← htail, List.prefix_append_right_inj] at hstarts
      obtain ⟨behind, rfl⟩ := hstarts
      have hbreak : isBreak b = true := isBreak_of_delimits hrest b rfl
      have hrun : y.1.takeWhile isNameChar = word := by
        rw [← htail]
        exact takeWhile_append_of_head hword fun c hc => by cases hc; exact isNameChar_of_isBreak hbreak
      have hhead : (y.1.drop (y.1.takeWhile isNameChar).length).head?.any isBreak = true := by
        rw [hrun, ← htail, List.drop_left]
        exact hbreak
      rcases fixed_with_break y hy hhead with hnil | helse
      · exact hne (hrun.symm.trans hnil)
      · -- Then the name is `w`, and the words behind it cannot follow it here.
        rw [helse] at hrun htail
        obtain rfl : word = ['w'] := hrun.symm
        obtain ⟨rfl, rfl⟩ := List.cons.inj (List.cons.inj htail).2
        cases hrest

theorem exists_of_isFreeName {name : String} (h : isFreeName name = true) :
    ∃ c cs, name.toList = c :: cs ∧ isNameStart c = true ∧ (c :: cs).all isNameChar = true
      ∧ ∀ y ∈ fixed, y.1 ≠ c :: cs := by
  unfold isFreeName at h
  split at h
  · cases h
  · rename_i c cs hchars
    simp only [Bool.and_eq_true, Bool.not_eq_true'] at h
    obtain ⟨⟨hstart, hrest⟩, hfree⟩ := h
    refine ⟨c, cs, hchars, hstart, ?_, ?_⟩
    · rw [List.all_cons, isNameChar_of_isNameStart hstart, hrest]
      rfl
    · intro y hy heq
      rw [List.any_eq_false] at hfree
      exact hfree y hy (by rw [heq]; exact beq_self_eq_true _)

/-- A name is recognised where it is not a fixed word and ends. -/
theorem recognise_name {name : String} {rest : List Char} (hname : isFreeName name = true)
    (hrest : delimits rest = true) :
    ∃ hpos, recognise (name.toList ++ rest)
      = some ⟨name.toList.length, .token (.identifier name), hpos⟩ := by
  obtain ⟨c, cs, hchars, hstart, hall, hfree⟩ := exists_of_isFreeName hname
  have hbreak := isBreak_of_delimits hrest
  have hident : identifierMatch (c :: cs ++ rest) = ((c :: cs).length, token (.identifier name)) := by
    have hrun := takeWhile_append_of_head hall fun b hb => isNameChar_of_isBreak (hbreak b hb)
    have hhead : (c :: cs ++ rest).head?.any isNameStart = true := hstart
    rw [identifierMatch, if_pos hhead, hrun, ← hchars, String.ofList_toList]
  have hblank : (blankMatch (c :: cs ++ rest)).1 = 0 :=
    blankMatch_eq_zero (isBlank_eq_false_of_isNameStart hstart)
  have hcomment : (commentMatch (c :: cs ++ rest)).1 = 0 := by
    apply commentMatch_eq_zero
    rintro rfl
    exact absurd hstart (by decide)
  have hnumeral : (numeralMatch (c :: cs ++ rest)).1 = 0 := by
    apply numeralMatch_eq_zero
    rw [Bool.eq_false_iff]
    intro hdigit
    rw [isNameStart_eq_false_of_isDigit hdigit] at hstart
    cases hstart
  have hpos : 0 < (c :: cs).length := by simp
  rw [hchars]
  refine ⟨hpos, recognise_of_longest ?_ hpos ?_⟩
  · rw [candidates]
    simp only [List.filter_cons, hblank, hcomment, hnumeral, hident, hpos, Nat.lt_irrefl, decide_false,
      decide_true, Bool.false_eq_true, if_false, if_true, List.filter_nil]
    refine longest_of_split ?_ (by simp)
    intro y hy
    obtain ⟨x, hx, rfl⟩ := List.mem_map.1 hy
    obtain ⟨hx, hstarts⟩ := List.mem_filter.1 hx
    exact length_fixed_lt_of_name hall (List.cons_ne_nil c cs) hfree hrest hx
      (List.isPrefixOf_iff_prefix.1 hstarts)
  · rw [List.drop_left]
    cases rest.head? with
    | none => rfl
    | some b => rfl

/-! ### Numerals -/

theorem numeralMatch_text (n : Numeral) {rest : List Char} (hrest : ∀ c ∈ rest.head?, isBreak c = true) :
    numeralMatch (n.text ++ rest) = (n.text.length, token (.number n.value)) := by
  have hdigit : ∀ c ∈ rest.head?, c.isDigit = false := fun c hc => (isDigit_of_isBreak (hrest c hc)).1
  have hwhole : n.whole.isEmpty = false := by simpa using n.whole_ne_nil
  by_cases hfraction : n.fraction.isEmpty = true
  · have hnil : n.fraction = [] := List.isEmpty_iff.1 hfraction
    have htext : n.text = n.whole := by rw [Numeral.text, if_pos hfraction]
    have hrun := takeWhile_append_of_head n.all_whole hdigit
    have hnone : numeralFraction rest = [] := by
      unfold numeralFraction
      split
      · exact absurd rfl (isDigit_of_isBreak (hrest '.' rfl)).2
      · rfl
    rw [htext, numeralMatch]
    simp only [hrun, List.drop_left, hnone, hwhole, List.isEmpty_nil, Bool.false_eq_true, if_false, if_true]
    rw [Numeral.value, hnil]
  · have htext : n.text = n.whole ++ '.' :: n.fraction := by rw [Numeral.text, if_neg hfraction]
    have hpoint : ∀ c ∈ ('.' :: (n.fraction ++ rest)).head?, c.isDigit = false := by
      intro c hc
      cases hc
      decide
    have hrun := takeWhile_append_of_head n.all_whole hpoint
    have hsome : numeralFraction ('.' :: (n.fraction ++ rest)) = n.fraction :=
      takeWhile_append_of_head n.all_fraction hdigit
    rw [htext, List.append_assoc, List.cons_append, numeralMatch]
    simp only [hrun, List.drop_left, hsome, hwhole, hfraction, Bool.false_eq_true, if_false]
    rw [Numeral.value, List.length_append, List.length_cons, Nat.add_assoc, Nat.add_comm 1]

theorem recognise_numeral (n : Numeral) {rest : List Char} (hrest : ∀ c ∈ rest.head?, isBreak c = true) :
    ∃ hpos, recognise (n.text ++ rest) = some ⟨n.text.length, .token (.number n.value), hpos⟩ := by
  obtain ⟨c, cs, htext, hc⟩ := n.exists_text_eq_cons
  have hmatch := numeralMatch_text n hrest
  have hpos : 0 < n.text.length := by
    rw [htext]
    simp
  refine ⟨hpos, recognise_of_longest ?_ hpos ?_⟩
  · have hfixed : ∀ x ∈ fixed, c ∉ x.1.head? := by
      intro x hx hhead
      rw [(fixed_head x hx c hhead).2.2.2] at hc
      cases hc
    have hblank : (blankMatch (c :: (cs ++ rest))).1 = 0 :=
      blankMatch_eq_zero (isBlank_eq_false_of_isDigit hc)
    have hcomment : (commentMatch (c :: (cs ++ rest))).1 = 0 := by
      apply commentMatch_eq_zero
      rintro rfl
      exact absurd hc (by decide)
    have hname : (identifierMatch (c :: (cs ++ rest))).1 = 0 :=
      identifierMatch_eq_zero (isNameStart_eq_false_of_isDigit hc)
    rw [htext, List.cons_append] at hmatch ⊢
    rw [htext] at hpos
    simp only [candidates, filter_fixed_eq_nil hfixed, List.map_nil, List.nil_append, List.filter_cons,
      hblank,
      hcomment, hmatch, hname, hpos, Nat.lt_irrefl, decide_false, decide_true, Bool.false_eq_true, if_false,
      if_true, List.filter_nil, longest]
  · rw [List.drop_left]
    cases hhead : rest.head? with
    | none => rfl
    | some b =>
        have hbreak := isNameChar_of_isBreak (hrest b hhead)
        simp [mayPrecede, hbreak]

end Lexeme

/-! ### Texts and their tokens -/

/-- A text on one line is a row of tokens of these kinds, wherever it stands. -/
structure Lexes (text : List Char) (kinds : List Token.Kind) : Prop where
  scan : ∀ last line column, (scanRest last line column text).error = none
    ∧ (scanRest last line column text).tokens.map Token.kind = kinds
  inline : ∀ c ∈ text, c ≠ '\n' ∧ c ≠ '\t'

theorem inline_of_isNameChar {c : Char} (h : isNameChar c = true) : c ≠ '\n' ∧ c ≠ '\t' := by
  constructor <;> rintro rfl <;> exact absurd h (by decide)

theorem inline_of_isDigit {c : Char} (h : c.isDigit = true) : c ≠ '\n' ∧ c ≠ '\t' := by
  constructor <;> rintro rfl <;> exact absurd h (by decide)

theorem Numeral.inline_text (n : Numeral) : ∀ c ∈ n.text, c ≠ '\n' ∧ c ≠ '\t' := by
  have hwhole : ∀ c ∈ n.whole, c ≠ '\n' ∧ c ≠ '\t' :=
    fun c hc => inline_of_isDigit (List.all_eq_true.1 n.all_whole c hc)
  have hfraction : ∀ c ∈ n.fraction, c ≠ '\n' ∧ c ≠ '\t' :=
    fun c hc => inline_of_isDigit (List.all_eq_true.1 n.all_fraction c hc)
  rw [text]
  split
  · exact hwhole
  · exact List.forall_mem_append.2 ⟨hwhole, List.forall_mem_cons.2 ⟨by decide, hfraction⟩⟩

theorem Lexeme.inline_fixed : ∀ x ∈ fixed, ∀ c ∈ x.1, c ≠ '\n' ∧ c ≠ '\t' := by
  intro x hx c hc
  have hall : ∀ x ∈ fixed, x.1.all (fun c => c != '\n' && c != '\t') = true := by
    decide
  simpa using List.all_eq_true.1 (hall x hx) c hc

namespace Lexes

variable {rest : List Char} {kinds : List Token.Kind}

theorem nil : Lexes [] [] where
  scan := by
    intro last line column
    rw [scanRest_nil]
    exact ⟨rfl, rfl⟩
  inline := by simp

theorem blank (h : Lexes rest kinds) : Lexes (' ' :: rest) kinds where
  scan := by
    intro last line column
    have hskip : scanRest last line column ([' '] ++ rest) = scanRest last line (column + 1) rest :=
      scanRest_blanks (by decide)
    rw [List.singleton_append] at hskip
    rw [hskip]
    exact h.scan last line (column + 1)
  inline := List.forall_mem_cons.2 ⟨by decide, h.inline⟩

/-- One word more in front. -/
theorem word {word : List Char} {kind : Token.Kind}
    (hfound : ∃ hpos, Lexeme.recognise (word ++ rest) = some ⟨word.length, .token kind, hpos⟩)
    (hquote : (word ++ rest).head? ≠ some '"') (hinline : ∀ c ∈ word, c ≠ '\n' ∧ c ≠ '\t')
    (h : Lexes rest kinds) : Lexes (word ++ rest) (kind :: kinds) where
  scan := by
    intro last line column
    obtain ⟨hpos, hfound⟩ := hfound
    have hne : ¬ (word ++ rest).isEmpty = true := by
      rw [List.isEmpty_iff, List.append_eq_nil_iff]
      rintro ⟨rfl, -⟩
      exact Nat.lt_irrefl 0 hpos
    obtain ⟨herror, htokens⟩ := h.scan last line (column + word.length)
    rw [scanRest, if_neg hne, if_neg hquote, hfound]
    dsimp only
    rw [List.drop_left]
    exact ⟨herror, congrArg (List.cons kind) htokens⟩
  inline := List.forall_mem_append.2 ⟨hinline, h.inline⟩

theorem name {name : String} (hname : isFreeName name = true) (hrest : delimits rest = true)
    (h : Lexes rest kinds) : Lexes (name.toList ++ rest) (.identifier name :: kinds) := by
  obtain ⟨c, cs, hchars, hstart, hall, -⟩ := Lexeme.exists_of_isFreeName hname
  refine word (Lexeme.recognise_name hname hrest) ?_ ?_ h
  · rw [hchars]
    rintro ⟨⟩
    exact absurd hstart (by decide)
  · rw [hchars]
    intro c hc
    exact inline_of_isNameChar (List.all_eq_true.1 hall c hc)

theorem numeral (n : Numeral) (hrest : delimits rest = true) (h : Lexes rest kinds) :
    Lexes (n.text ++ rest) (.number n.value :: kinds) := by
  refine word (Lexeme.recognise_numeral n (isBreak_of_delimits hrest)) ?_ n.inline_text h
  obtain ⟨c, cs, htext, hdigit⟩ := n.exists_text_eq_cons
  rw [htext]
  rintro ⟨⟩
  exact absurd hdigit (by decide)

/-- A fixed word in front of a blank, a bracket, a comma or the end. -/
theorem fixed {fixed : List Char} {kind : Token.Kind} (hmem : (fixed, kind) ∈ Lexeme.fixed)
    (hrest : ∀ c ∈ rest.head?, isBreak c = true ∧ (kind = .keyword .return_ → c = ' '))
    (h : Lexes rest kinds) : Lexes (fixed ++ rest) (kind :: kinds) := by
  refine word (Lexeme.recognise_fixed hmem hrest) ?_ (Lexeme.inline_fixed _ hmem) h
  obtain ⟨first, others, rfl⟩ := List.exists_cons_of_ne_nil (Lexeme.fixed_ne_nil _ hmem)
  rintro ⟨⟩
  exact absurd rfl (Lexeme.fixed_head _ hmem '"' rfl).2.2.1

/-- A fixed word in front of a blank. -/
theorem spaced {fixed : List Char} {kind : Token.Kind} (hmem : (fixed, kind) ∈ Lexeme.fixed)
    (h : Lexes rest kinds) : Lexes (fixed ++ ' ' :: rest) (kind :: kinds) :=
  .fixed hmem (fun c hc => by cases hc; exact ⟨rfl, fun _ => rfl⟩) h.blank

/-- A fixed word at the end of a line. -/
theorem last {fixed : List Char} {kind : Token.Kind} (hmem : (fixed, kind) ∈ Lexeme.fixed) :
    Lexes fixed [kind] := by
  have hlast : Lexes (fixed ++ []) [kind] := .fixed hmem (by simp) .nil
  rw [List.append_nil] at hlast
  exact hlast

theorem symbol {c : Char} {kind : Token.Kind} (hmem : ([c], kind) ∈ Lexeme.fixed)
    (hsole : ∀ y ∈ Lexeme.fixed, c ∈ y.1.head? → y.1 = [c]) (hstart : isNameStart c = false)
    (hword : (Lexeme.token kind).isWordLike = false) (hreturn : kind ≠ .keyword .return_)
    (h : Lexes rest kinds) : Lexes (c :: rest) (kind :: kinds) := by
  change Lexes ([c] ++ rest) _
  refine word (Lexeme.recognise_symbol hmem hsole hstart hword hreturn rest) ?_ (Lexeme.inline_fixed _ hmem) h
  rintro ⟨⟩
  exact absurd rfl (Lexeme.fixed_head _ hmem '"' rfl).2.2.1

theorem opening (h : Lexes rest kinds) : Lexes ('(' :: rest) (.delimiter .parenthesis .opening :: kinds) :=
  h.symbol (by decide) (by decide) (by decide) (by decide) (by decide)

theorem closing (h : Lexes rest kinds) : Lexes (')' :: rest) (.delimiter .parenthesis .closing :: kinds) :=
  h.symbol (by decide) (by decide) (by decide) (by decide) (by decide)

theorem openingBracket (h : Lexes rest kinds) : Lexes ('[' :: rest) (.delimiter .bracket .opening :: kinds) :=
  h.symbol (by decide) (by decide) (by decide) (by decide) (by decide)

theorem closingBracket (h : Lexes rest kinds) : Lexes (']' :: rest) (.delimiter .bracket .closing :: kinds) :=
  h.symbol (by decide) (by decide) (by decide) (by decide) (by decide)

theorem minus (h : Lexes rest kinds) : Lexes ('-' :: rest) (.operator (.binary .sub) :: kinds) :=
  h.symbol (by decide) (by decide) (by decide) (by decide) (by decide)

theorem comma (h : Lexes rest kinds) : Lexes (',' :: ' ' :: rest) (.comma :: kinds) :=
  h.blank.symbol (by decide) (by decide) (by decide) (by decide) (by decide)

/-- A text in quotes. -/
theorem text {content : List Char} (hcontent : ∀ c ∈ content, c ≠ '"' ∧ c ≠ '\n' ∧ c ≠ '\t')
    (h : Lexes rest kinds) :
    Lexes ('"' :: (content ++ '"' :: rest)) (.text (String.ofList content) :: kinds) where
  scan := by
    intro last line column
    have hrun : (content ++ '"' :: rest).takeWhile (· != '"') = content := by
      refine takeWhile_append_of_head ?_ ?_
      · rw [List.all_eq_true]
        intro c hc
        rw [bne_iff_ne]
        exact (hcontent c hc).1
      · intro c hc
        cases hc
        rfl
    have hbehind : (content ++ '"' :: rest).drop (content.length + 1) = rest := by
      rw [← List.drop_drop, List.drop_left]
      rfl
    obtain ⟨herror, htokens⟩ := h.scan last line (column + (content.length + 2))
    rw [scanRest, if_neg (by simp), if_pos (by rfl)]
    simp only [List.drop_succ_cons, List.drop_zero, hrun]
    rw [if_pos (by simp), hbehind]
    exact ⟨herror, congrArg (List.cons _) htokens⟩
  inline := by
    refine List.forall_mem_cons.2 ⟨by decide, List.forall_mem_append.2 ⟨fun c hc => (hcontent c hc).2, ?_⟩⟩
    exact List.forall_mem_cons.2 ⟨by decide, h.inline⟩

end Lexes

end PolishPseudocode
