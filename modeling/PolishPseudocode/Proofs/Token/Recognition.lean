import PolishPseudocode.Proofs.Token.Names

/-! Which lexeme is recognised. Every lexeme has its pattern, a set of texts; what stands next on a line is the
longest text of any pattern, and a fixed word comes before a name of the same length. It is refused only where it
runs into the text behind it. -/

namespace PolishPseudocode

/-- The text of a token of this kind, if there is only one such text. -/
def Token.Kind.spelling? : Token.Kind → Option (List Char)
  | .delimiter pair side => some (pair.symbol side).toList
  | .comma => some ",".toList
  | .keyword word => some word.spelling.toList
  | .bool value => some (boolText value).toList
  | .operator op => some op.spelling.toList
  | .ellipsis => some "...".toList
  | .indentation | .identifier _ | .number _ | .text _ | .newLine => none

theorem Numeral.length_text (n : Numeral) :
    n.text.length = if n.fraction.isEmpty then n.whole.length else n.whole.length + 1 + n.fraction.length := by
  rw [text]
  split
  · rfl
  · rw [List.length_append, List.length_cons, Nat.add_assoc, Nat.add_comm 1]

namespace Lexeme

/-- The pattern of a lexeme: the texts that are read as this lexeme. -/
inductive Matches : Lexeme → List Char → Prop
  | blank {text : List Char} (nonempty : text ≠ []) (all : text.all isBlank = true) : Matches .blank text
  | comment {text : List Char} (inline : '\n' ∉ text) : Matches .comment ('#' :: text)
  | fixed {kind : Token.Kind} {word : List Char} (spelling : kind.spelling? = some word) :
      Matches (.token kind) word
  | numeral (n : Numeral) : Matches (.token (.number n.value)) n.text
  | name {c : Char} {cs : List Char} (start : isNameStart c = true) (all : cs.all isNameChar = true) :
      Matches (.token (.identifier (String.ofList (c :: cs)))) (c :: cs)

def IsName (lexeme : Lexeme) : Prop :=
  ∃ name, lexeme = .token (.identifier name)

/-- The longest match at the start of `rest`. A name comes only where no fixed word has the same length. -/
structure LongestMatch (rest : List Char) (length : Nat) (lexeme : Lexeme) : Prop where
  length_le : length ≤ rest.length
  matched : lexeme.Matches (rest.take length)
  maximal : ∀ lexeme' word, word <+: rest → Matches lexeme' word → word.length ≤ length
  first : ∀ lexeme', Matches lexeme' (rest.take length) → lexeme' = lexeme ∨ lexeme'.IsName

/-! ### The fixed words -/

theorem spelling?_of_mem_fixed : ∀ x ∈ fixed, x.2.spelling? = some x.1 := by
  decide

theorem mem_fixed_of_spelling? {kind : Token.Kind} {word : List Char} (h : kind.spelling? = some word) :
    (word, kind) ∈ fixed := by
  cases kind with
  | delimiter pair side => cases pair <;> cases side <;> cases h <;> decide
  | keyword word => cases word <;> cases h <;> decide
  | bool value => cases value <;> cases h <;> decide
  | operator op =>
      cases op with
      | binary op => cases op <;> cases h <;> decide
      | not => cases h; decide
  | comma => cases h; decide
  | ellipsis => cases h; decide
  | indentation | identifier _ | number _ | text _ | newLine => cases h

theorem head_of_spelling? {kind : Token.Kind} {c : Char} {word cs : List Char} (h : kind.spelling? = some word)
    (hword : word = c :: cs) : isBlank c = false ∧ c ≠ '#' ∧ c.isDigit = false := by
  obtain ⟨hblank, hhash, -, hdigit⟩ := fixed_head _ (mem_fixed_of_spelling? h) c (by rw [hword]; rfl)
  exact ⟨hblank, hhash, hdigit⟩

/-! ### Patterns tell lexemes apart -/

namespace Matches

variable {lexeme lexeme' : Lexeme} {c : Char} {word cs rest : List Char}

theorem ne_nil (h : Matches lexeme word) : word ≠ [] := by
  cases h with
  | blank nonempty => exact nonempty
  | comment => exact List.cons_ne_nil _ _
  | fixed spelling => exact fixed_ne_nil _ (mem_fixed_of_spelling? spelling)
  | numeral n =>
      obtain ⟨c, cs, htext, -⟩ := n.exists_text_eq_cons
      rw [htext]
      exact List.cons_ne_nil c cs
  | name => exact List.cons_ne_nil _ _

/-- What starts with a blank is a run of blanks. -/
theorem eq_blank (h : Matches lexeme word) (hword : word = c :: cs) (hc : isBlank c = true) : lexeme = .blank := by
  cases h with
  | blank => rfl
  | comment =>
      cases hword
      exact absurd hc (by decide)
  | fixed spelling =>
      rw [(head_of_spelling? spelling hword).1] at hc
      cases hc
  | numeral n =>
      obtain ⟨d, ds, htext, hd⟩ := n.exists_text_eq_cons
      cases htext.symm.trans hword
      rw [isBlank_eq_false_of_isDigit hd] at hc
      cases hc
  | name start =>
      cases hword
      rw [isBlank_eq_false_of_isNameStart start] at hc
      cases hc

/-- What starts with a hash is a comment. -/
theorem eq_comment (h : Matches lexeme word) (hword : word = '#' :: cs) : lexeme = .comment := by
  cases h with
  | blank nonempty all =>
      rw [hword, List.all_cons, Bool.and_eq_true] at all
      exact absurd all.1 (by decide)
  | comment => rfl
  | fixed spelling => exact absurd rfl (head_of_spelling? spelling hword).2.1
  | numeral n =>
      obtain ⟨d, ds, htext, hd⟩ := n.exists_text_eq_cons
      cases htext.symm.trans hword
      exact absurd hd (by decide)
  | name start =>
      cases hword
      exact absurd start (by decide)

/-- What starts with a digit is a numeral. -/
theorem exists_numeral (h : Matches lexeme word) (hword : word = c :: cs) (hc : c.isDigit = true) :
    ∃ n : Numeral, n.text = word ∧ lexeme = .token (.number n.value) := by
  cases h with
  | blank nonempty all =>
      rw [hword, List.all_cons, Bool.and_eq_true] at all
      rw [isDigit_eq_false_of_isBlank all.1] at hc
      cases hc
  | comment =>
      cases hword
      exact absurd hc (by decide)
  | fixed spelling =>
      rw [(head_of_spelling? spelling hword).2.2] at hc
      cases hc
  | numeral n => exact ⟨n, rfl, rfl⟩
  | name start =>
      cases hword
      rw [isNameStart_eq_false_of_isDigit hc] at start
      cases start

/-- A numeral denotes one number. -/
theorem value_eq_of_text_eq {n n' : Numeral} (h : n.text = n'.text) : n.value = n'.value := by
  have hmatch : numeralMatch (n.text ++ []) = (n.text.length, token (.number n.value)) := numeralMatch_text n (by simp)
  rw [h, numeralMatch_text n' (by simp), Prod.mk.injEq, token.injEq, Token.Kind.number.injEq] at hmatch
  exact hmatch.2.symm

/-- A name is its text. -/
theorem eq_name {name : String} (h : Matches (.token (.identifier name)) word) : name = String.ofList word := by
  cases h with
  | fixed spelling => cases spelling
  | name => rfl

/-- A text matches one lexeme only, or it is a fixed word that could be a name too. -/
theorem eq_or_isName (h : Matches lexeme word) (h' : Matches lexeme' word) :
    lexeme' = lexeme ∨ lexeme'.IsName ∨ lexeme.IsName := by
  cases h with
  | blank nonempty all =>
      obtain ⟨c, cs, rfl⟩ := List.exists_cons_of_ne_nil nonempty
      rw [List.all_cons, Bool.and_eq_true] at all
      exact .inl (h'.eq_blank rfl all.1)
  | comment => exact .inl (h'.eq_comment rfl)
  | fixed spelling =>
      cases h' with
      | blank nonempty all =>
          obtain ⟨c, cs, rfl⟩ := List.exists_cons_of_ne_nil nonempty
          rw [List.all_cons, (head_of_spelling? spelling rfl).1] at all
          cases all
      | comment => exact absurd rfl (head_of_spelling? spelling rfl).2.1
      | fixed spelling' =>
          cases eq_of_mem_fixed _ (mem_fixed_of_spelling? spelling') _ (mem_fixed_of_spelling? spelling) rfl
          exact .inl rfl
      | numeral n =>
          obtain ⟨c, cs, htext, hc⟩ := n.exists_text_eq_cons
          rw [(head_of_spelling? spelling htext).2.2] at hc
          cases hc
      | name => exact .inr (.inl ⟨_, rfl⟩)
  | numeral n =>
      obtain ⟨c, cs, htext, hc⟩ := n.exists_text_eq_cons
      obtain ⟨n', htext', rfl⟩ := h'.exists_numeral htext hc
      rw [value_eq_of_text_eq htext']
      exact .inl rfl
  | name => exact .inr (.inr ⟨_, rfl⟩)

/-- A name starts with a letter or an underscore. -/
theorem exists_start (h : Matches lexeme word) (hname : lexeme.IsName) :
    ∃ c cs, word = c :: cs ∧ isNameStart c = true := by
  obtain ⟨name, rfl⟩ := hname
  cases h with
  | fixed spelling => cases spelling
  | name start => exact ⟨_, _, rfl, start⟩

/-- What matches the text of a name is a name or a fixed word. -/
theorem spelling_of_isName (h : Matches lexeme word) (hname : lexeme.IsName) (h' : Matches lexeme' word) :
    lexeme'.IsName ∨ ∃ kind, lexeme' = .token kind ∧ kind.spelling? = some word := by
  obtain ⟨c, cs, hword, hstart⟩ := h.exists_start hname
  cases h' with
  | blank nonempty all =>
      rw [hword, List.all_cons, isBlank_eq_false_of_isNameStart hstart] at all
      cases all
  | comment =>
      cases hword
      exact absurd hstart (by decide)
  | fixed spelling => exact .inr ⟨_, rfl, spelling⟩
  | numeral n =>
      obtain ⟨d, ds, htext, hd⟩ := n.exists_text_eq_cons
      cases htext.symm.trans hword
      rw [isNameStart_eq_false_of_isDigit hd] at hstart
      cases hstart
  | name => exact .inl ⟨_, rfl⟩

end Matches

/-! ### Every candidate matches, and every match has a candidate -/

variable {rest word : List Char} {length : Nat} {lexeme : Lexeme}

/-- A run of a class at the start is part of the longest one. -/
theorem prefix_takeWhile {p : Char → Bool} (hall : word.all p = true) (h : word <+: rest) :
    word <+: rest.takeWhile p := by
  obtain ⟨behind, rfl⟩ := h
  rw [List.takeWhile_append_of_pos (List.all_eq_true.1 hall)]
  exact List.prefix_append _ _

theorem all_numeralFraction (text : List Char) : (numeralFraction text).all Char.isDigit = true := by
  unfold numeralFraction
  split
  · exact List.all_takeWhile
  · rfl

/-- A fraction that is not empty stands behind a point. -/
theorem starts_point_numeralFraction {text : List Char} (h : numeralFraction text ≠ []) :
    '.' :: numeralFraction text <+: text := by
  cases text with
  | nil => exact absurd rfl h
  | cons c text =>
      by_cases hc : c = '.'
      · subst hc
        exact List.cons_prefix_cons.2 ⟨rfl, List.takeWhile_prefix _⟩
      · refine absurd ?_ h
        unfold numeralFraction
        split
        · rename_i heq
          exact absurd (List.cons.inj heq).1 hc
        · rfl

/-- The numeral at the start of `rest`, which starts with a digit: all its digits, and the fraction behind them. -/
def numeralAt (rest : List Char) (h : rest.takeWhile Char.isDigit ≠ []) : Numeral where
  whole := rest.takeWhile Char.isDigit
  fraction := numeralFraction (rest.drop (rest.takeWhile Char.isDigit).length)
  whole_ne_nil := h
  all_whole := List.all_takeWhile
  all_fraction := all_numeralFraction _

theorem starts_text_numeralAt (h : rest.takeWhile Char.isDigit ≠ []) : (numeralAt rest h).text <+: rest := by
  have hwhole : rest.takeWhile Char.isDigit <+: rest := List.takeWhile_prefix _
  rw [Numeral.text]
  split
  · exact hwhole
  · rename_i hfraction
    have hpoint : '.' :: (numeralAt rest h).fraction <+: rest.drop (rest.takeWhile Char.isDigit).length :=
      starts_point_numeralFraction fun hnil => hfraction (List.isEmpty_iff.2 hnil)
    rwa [← List.prefix_append_right_inj (rest.takeWhile Char.isDigit), List.prefix_iff_eq_append.1 hwhole] at hpoint

theorem numeralMatch_eq (h : rest.takeWhile Char.isDigit ≠ []) :
    numeralMatch rest = ((numeralAt rest h).text.length, .token (.number (numeralAt rest h).value)) := by
  have hwhole : (rest.takeWhile Char.isDigit).isEmpty = false := by simpa using h
  rw [Numeral.length_text, numeralMatch]
  simp only [hwhole, Bool.false_eq_true, if_false]
  rfl

/-- A numeral at the start of `rest` is not longer than the one that is matched. -/
theorem length_text_le {n : Numeral} (h : n.text <+: rest) : n.text.length ≤ (numeralMatch rest).1 := by
  have hwhole : n.whole <+: n.text := by
    rw [Numeral.text]
    split
    · exact List.prefix_rfl
    · exact List.prefix_append _ _
  have hrun : n.whole <+: rest.takeWhile Char.isDigit := prefix_takeWhile n.all_whole (hwhole.trans h)
  have hne : rest.takeWhile Char.isDigit ≠ [] := fun hnil => n.whole_ne_nil (List.prefix_nil.1 (hnil ▸ hrun))
  -- A point behind the digits ends them, so both numerals have the same digits in front of it.
  have hfraction : n.fraction ≠ [] →
      n.whole.length = (numeralAt rest hne).whole.length ∧ n.fraction <+: (numeralAt rest hne).fraction := by
    intro hsome
    have htext : n.text = n.whole ++ '.' :: n.fraction := by
      rw [Numeral.text, if_neg fun hnil => hsome (List.isEmpty_iff.1 hnil)]
    obtain ⟨behind, hbehind⟩ := h
    rw [htext, List.append_assoc, List.cons_append] at hbehind
    have hsame : rest.takeWhile Char.isDigit = n.whole := by
      rw [← hbehind]
      exact takeWhile_append_of_head n.all_whole fun c hc => by cases hc; decide
    have hdrop : rest.drop n.whole.length = '.' :: (n.fraction ++ behind) := by
      rw [← hbehind, List.drop_left]
    refine ⟨congrArg List.length hsame.symm, ?_⟩
    change n.fraction <+: numeralFraction (rest.drop (rest.takeWhile Char.isDigit).length)
    rw [hsame, hdrop]
    exact prefix_takeWhile n.all_fraction (List.prefix_append _ _)
  have hle : n.whole.length ≤ (numeralAt rest hne).whole.length := hrun.length_le
  rw [numeralMatch_eq hne, Numeral.length_text, Numeral.length_text]
  by_cases hnil : n.fraction = []
  · rw [if_pos (List.isEmpty_iff.2 hnil)]
    split <;> omega
  · obtain ⟨hwholes, hfractions⟩ := hfraction hnil
    have hlength := hfractions.length_le
    have hpos : 0 < n.fraction.length := List.length_pos_iff.2 hnil
    have hsome : ¬ (numeralAt rest hne).fraction.isEmpty = true := by
      rw [List.isEmpty_iff, ← List.length_eq_zero_iff]
      omega
    rw [if_neg fun hempty => hnil (List.isEmpty_iff.1 hempty), if_neg hsome]
    omega

/-- The start of `rest` that a candidate takes is a text of its pattern. -/
theorem matches_of_mem_candidates (hinline : lexeme = .comment → '\n' ∉ rest)
    (h : (length, lexeme) ∈ candidates rest) : length ≤ rest.length ∧ Matches lexeme (rest.take length) := by
  have htake {word : List Char} (hword : word <+: rest) (hmatch : Matches lexeme word) :
      word.length ≤ rest.length ∧ Matches lexeme (rest.take word.length) := by
    refine ⟨hword.length_le, ?_⟩
    rwa [← List.prefix_iff_eq_take.1 hword]
  rcases List.mem_append.1 h with h | h
  · obtain ⟨⟨word, kind⟩, hmem, heq⟩ := List.mem_map.1 h
    cases heq
    obtain ⟨hmem, hword⟩ := List.mem_filter.1 hmem
    exact htake (List.isPrefixOf_iff_prefix.1 hword) (.fixed (spelling?_of_mem_fixed _ hmem))
  · obtain ⟨hmem, hlong⟩ := List.mem_filter.1 h
    have hpos : 0 < length := of_decide_eq_true hlong
    clear hlong
    simp only [List.mem_cons, List.not_mem_nil, or_false] at hmem
    rcases hmem with heq | heq | heq | heq
    · cases heq
      exact htake (List.takeWhile_prefix _) (.blank (List.length_pos_iff.1 hpos) List.all_takeWhile)
    · cases rest with
      | nil =>
          cases heq
          cases hpos
      | cons c rest =>
          by_cases hc : c = '#'
          · subst hc
            cases heq
            exact htake List.prefix_rfl (.comment fun hmem => hinline rfl (List.mem_cons_of_mem _ hmem))
          · rw [Prod.ext_iff, commentMatch_eq_zero hc] at heq
            exact absurd heq.1 (Nat.ne_of_gt hpos)
    · by_cases hdigit : rest.takeWhile Char.isDigit = []
      · rw [numeralMatch, hdigit] at heq
        cases heq
        cases hpos
      · rw [numeralMatch_eq hdigit] at heq
        cases heq
        exact htake (starts_text_numeralAt hdigit) (.numeral _)
    · by_cases hstart : rest.head?.any isNameStart = true
      · rw [identifierMatch, if_pos hstart] at heq
        cases heq
        cases rest with
        | nil => cases hstart
        | cons c rest =>
            have hc : isNameStart c = true := hstart
            have hname : Matches (.token (.identifier (String.ofList ((c :: rest).takeWhile isNameChar))))
                ((c :: rest).takeWhile isNameChar) := by
              rw [List.takeWhile_cons_of_pos (isNameChar_of_isNameStart hc)]
              exact .name hc List.all_takeWhile
            exact htake (List.takeWhile_prefix _) hname
      · rw [identifierMatch, if_neg hstart] at heq
        cases heq
        cases hpos

/-- Where a text matches, a candidate takes at least as much. -/
theorem exists_mem_candidates (h : Matches lexeme word) (hword : word <+: rest) :
    ∃ x ∈ candidates rest, word.length ≤ x.1 := by
  have hpos : 0 < word.length := List.length_pos_iff.2 h.ne_nil
  have hother {x : Nat × Lexeme}
      (hx : x ∈ [blankMatch rest, commentMatch rest, numeralMatch rest, identifierMatch rest])
      (hle : word.length ≤ x.1) : ∃ x ∈ candidates rest, word.length ≤ x.1 :=
    ⟨x, List.mem_append_right _ (List.mem_filter.2 ⟨hx, decide_eq_true (Nat.lt_of_lt_of_le hpos hle)⟩), hle⟩
  cases h with
  | blank nonempty all => exact hother (x := blankMatch rest) (by simp) (prefix_takeWhile all hword).length_le
  | comment inline =>
      have hhead : rest.head? = some '#' := by
        obtain ⟨behind, rfl⟩ := hword
        rfl
      refine hother (x := commentMatch rest) (by simp) ?_
      rw [commentMatch, if_pos hhead]
      exact hword.length_le
  | @fixed kind word spelling =>
      have hmem : (word, kind) ∈ fixed.filter (·.1.isPrefixOf rest) :=
        List.mem_filter.2 ⟨mem_fixed_of_spelling? spelling, List.isPrefixOf_iff_prefix.2 hword⟩
      exact ⟨_, List.mem_append_left _ (List.mem_map_of_mem hmem), Nat.le_refl _⟩
  | numeral n => exact hother (x := numeralMatch rest) (by simp) (length_text_le hword)
  | @name c cs start all =>
      have hall : (c :: cs).all isNameChar = true := by
        rw [List.all_cons, isNameChar_of_isNameStart start, all]
        rfl
      have hstart : rest.head?.any isNameStart = true := by
        obtain ⟨behind, rfl⟩ := hword
        exact start
      refine hother (x := identifierMatch rest) (by simp) ?_
      rw [identifierMatch, if_pos hstart]
      exact (prefix_takeWhile hall hword).length_le

/-! ### The longest match -/

theorem le_of_longest {cs : List (Nat × Lexeme)} {best : Nat × Lexeme} (h : longest cs = some best) :
    ∀ x ∈ cs, x.1 ≤ best.1 := by
  induction cs generalizing best with
  | nil => exact List.forall_mem_nil _
  | cons c cs ih =>
      rw [longest] at h
      refine List.forall_mem_cons.2 ?_
      cases hrest : longest cs with
      | none =>
          rw [hrest] at h
          cases h
          refine ⟨Nat.le_refl _, fun x hx => ?_⟩
          cases cs with
          | nil => cases hx
          | cons c' cs =>
              rw [longest] at hrest
              split at hrest
              · cases hrest
              · split at hrest <;> cases hrest
      | some best' =>
          rw [hrest] at h
          dsimp only at h
          split at h
          · cases h
            rename_i hlt
            exact ⟨Nat.le_of_lt hlt, ih hrest⟩
          · cases h
            rename_i hle
            exact ⟨Nat.le_refl _, fun x hx => Nat.le_trans (ih hrest x hx) (Nat.le_of_not_lt hle)⟩

theorem longest_eq_none_iff {cs : List (Nat × Lexeme)} : longest cs = none ↔ cs = [] := by
  cases cs with
  | nil => exact ⟨fun _ => rfl, fun _ => rfl⟩
  | cons c cs =>
      rw [longest]
      refine ⟨fun h => ?_, fun h => absurd h (List.cons_ne_nil c cs)⟩
      split at h
      · cases h
      · split at h <;> cases h

/-- The first of the longest candidates is the longest match. -/
theorem LongestMatch.of_longest (hinline : '\n' ∉ rest) (h : longest (candidates rest) = some (length, lexeme)) :
    LongestMatch rest length lexeme := by
  obtain ⟨hlength, hmatched⟩ := matches_of_mem_candidates (fun _ => hinline) (mem_of_longest h)
  have hmaximal : ∀ lexeme' word, word <+: rest → Matches lexeme' word → word.length ≤ length := by
    intro lexeme' word hword hmatch
    obtain ⟨x, hx, hle⟩ := exists_mem_candidates hmatch hword
    exact Nat.le_trans hle (le_of_longest h x hx)
  refine ⟨hlength, hmatched, hmaximal, fun lexeme' hmatch => ?_⟩
  rcases hmatched.eq_or_isName hmatch with heq | hname | hname
  · exact .inl heq
  · exact .inr hname
  rcases hmatched.spelling_of_isName hname hmatch with hname' | ⟨kind, rfl, hspelling⟩
  · exact .inr hname'
  -- A fixed word of this length is a candidate before the name, which would have to be longer.
  have hword : rest.take length <+: rest := List.take_prefix length rest
  have hfixed : (rest.take length, kind) ∈ fixed.filter (·.1.isPrefixOf rest) :=
    List.mem_filter.2 ⟨mem_fixed_of_spelling? hspelling, List.isPrefixOf_iff_prefix.2 hword⟩
  have hnew : (length, lexeme) ∉
      (fixed.filter (·.1.isPrefixOf rest)).map (fun entry => (entry.1.length, token entry.2)) := by
    intro hmem
    obtain ⟨⟨word, kind'⟩, hentry, heq⟩ := List.mem_map.1 hmem
    cases heq
    obtain ⟨name, hkind⟩ := hname
    cases hkind
    exact class_fixed _ (List.mem_filter.1 hentry).1 rfl
  have hlt : (rest.take length).length < length := lt_of_longest h hnew _ (List.mem_map_of_mem hfixed)
  rw [List.length_take, Nat.min_eq_left hlength] at hlt
  exact absurd hlt (Nat.lt_irrefl _)

/-- There is one longest match. -/
theorem LongestMatch.unique {length' : Nat} {lexeme' : Lexeme} (h : LongestMatch rest length lexeme)
    (h' : LongestMatch rest length' lexeme') : length = length' ∧ lexeme = lexeme' := by
  have hle := h'.maximal _ _ (List.take_prefix length rest) h.matched
  have hle' := h.maximal _ _ (List.take_prefix length' rest) h'.matched
  rw [List.length_take, Nat.min_eq_left h.length_le] at hle
  rw [List.length_take, Nat.min_eq_left h'.length_le] at hle'
  obtain rfl := Nat.le_antisymm hle hle'
  refine ⟨rfl, ?_⟩
  rcases h.first _ h'.matched with heq | ⟨name', rfl⟩
  · exact heq.symm
  rcases h'.first _ h.matched with heq | ⟨name, rfl⟩
  · exact heq
  rw [h.matched.eq_name, h'.matched.eq_name]

/-- What the candidates give is the longest match. -/
theorem longest_candidates_iff (hinline : '\n' ∉ rest) :
    longest (candidates rest) = some (length, lexeme) ↔ LongestMatch rest length lexeme := by
  refine ⟨.of_longest hinline, fun h => ?_⟩
  obtain ⟨x, hx, -⟩ := exists_mem_candidates h.matched (List.take_prefix length rest)
  cases hlongest : longest (candidates rest) with
  | none =>
      rw [longest_eq_none_iff.1 hlongest] at hx
      cases hx
  | some best =>
      obtain ⟨hlength, hlexeme⟩ := h.unique (.of_longest hinline hlongest)
      rw [hlength, hlexeme]

theorem longest_candidates_eq_none_iff (hinline : '\n' ∉ rest) :
    longest (candidates rest) = none ↔ ∀ lexeme word, word <+: rest → ¬ Matches lexeme word := by
  rw [longest_eq_none_iff]
  constructor
  · intro hnone lexeme word hword hmatch
    obtain ⟨x, hx, -⟩ := exists_mem_candidates hmatch hword
    rw [hnone] at hx
    cases hx
  · intro hnone
    refine List.eq_nil_iff_forall_not_mem.2 fun x hx => ?_
    exact hnone x.2 _ (List.take_prefix x.1 rest) (matches_of_mem_candidates (fun _ => hinline) hx).2

/-! ### What runs into the text behind it -/

/-- Whether the lexeme is a numeral or a word of letters, so that it must not run into a name. -/
inductive IsWord : Lexeme → Prop
  | numeral (value : Float) : IsWord (.token (.number value))
  | lettered {kind : Token.Kind} {word : List Char} (spelling : kind.spelling? = some word)
      (start : word.head?.any isNameStart = true) : IsWord (.token kind)

/-- A lexeme that cannot stand before this text: a word or a numeral before a letter, a digit or an underscore, or
the word that returns from a function before anything but a space. -/
inductive RunsInto : Lexeme → List Char → Prop
  | word {lexeme : Lexeme} {c : Char} {rest : List Char} (isWord : lexeme.IsWord) (next : isNameChar c = true) :
      RunsInto lexeme (c :: rest)
  | giveBack {c : Char} {rest : List Char} (next : c ≠ ' ') : RunsInto (.token (.keyword .return_)) (c :: rest)

theorem isWordLike_fixed : ∀ x ∈ fixed, (token x.2).isWordLike = x.1.head?.any isNameStart := by
  decide

theorem isWordLike_iff : lexeme.isWordLike = true ↔ lexeme.IsWord := by
  constructor
  · intro h
    cases lexeme with
    | blank => cases h
    | comment => cases h
    | token kind =>
        cases hspelling : kind.spelling? with
        | some word =>
            rw [isWordLike_fixed _ (mem_fixed_of_spelling? hspelling)] at h
            exact .lettered hspelling h
        | none =>
            cases kind with
            | number value => exact .numeral value
            | indentation | identifier _ | text _ | newLine => cases h
            | delimiter _ _ | comma | keyword _ | bool _ | operator _ | ellipsis => cases hspelling
  · intro h
    cases h with
    | numeral value => rfl
    | lettered spelling start => rw [isWordLike_fixed _ (mem_fixed_of_spelling? spelling), start]

theorem all_mayPrecede_iff : rest.head?.all (lexeme.mayPrecede ·) = true ↔ ¬ lexeme.RunsInto rest := by
  cases rest with
  | nil =>
      refine ⟨fun _ hruns => ?_, fun _ => rfl⟩
      cases hruns
  | cons c rest =>
      change (!(lexeme.isWordLike && isNameChar c)
        && (lexeme != token (.keyword .return_) || c == ' ')) = true ↔ _
      constructor
      · intro h hruns
        cases hruns with
        | word isWord next =>
            rw [isWordLike_iff.2 isWord, next] at h
            cases h
        | giveBack next => simp [next] at h
      · intro h
        have hword : (lexeme.isWordLike && isNameChar c) = false := by
          rw [Bool.eq_false_iff, ne_eq, Bool.and_eq_true]
          rintro ⟨hword, hnext⟩
          exact h (.word (isWordLike_iff.1 hword) hnext)
        rw [hword, Bool.not_false, Bool.true_and, Bool.or_eq_true, bne_iff_ne, beq_iff_eq]
        by_contra hneither
        rw [not_or, not_not] at hneither
        obtain ⟨rfl, hnext⟩ := hneither
        exact h (.giveBack hnext)

/-! ### Recognition -/

/-- What is recognised is the longest match, where it does not run into the text behind it. -/
theorem recognise_eq_some_iff (hinline : '\n' ∉ rest) (found : Found) :
    recognise rest = some found
      ↔ LongestMatch rest found.length found.lexeme ∧ ¬ found.lexeme.RunsInto (rest.drop found.length) := by
  constructor
  · intro h
    refine ⟨.of_longest hinline (longest_of_recognise h), all_mayPrecede_iff.1 ?_⟩
    rw [recognise, longest_of_recognise h] at h
    dsimp only at h
    split at h
    · rename_i hnext
      exact hnext.2
    · cases h
  · rintro ⟨hlongest, hnext⟩
    exact recognise_of_longest ((longest_candidates_iff hinline).2 hlongest) found.length_pos
      (all_mayPrecede_iff.2 hnext)

/-- Nothing is recognised where nothing matches, or where the longest match runs into the text behind it. -/
theorem recognise_eq_none_iff (hinline : '\n' ∉ rest) :
    recognise rest = none ↔ (∀ lexeme word, word <+: rest → ¬ Matches lexeme word)
      ∨ ∃ length lexeme, LongestMatch rest length lexeme ∧ lexeme.RunsInto (rest.drop length) := by
  cases hlongest : longest (candidates rest) with
  | none =>
      have hnone := (longest_candidates_eq_none_iff hinline).1 hlongest
      rw [recognise, hlongest]
      exact ⟨fun _ => .inl hnone, fun _ => rfl⟩
  | some best =>
      obtain ⟨length, lexeme⟩ := best
      have hmatch := LongestMatch.of_longest hinline hlongest
      have hpos : 0 < length := by
        have := List.length_pos_iff.2 hmatch.matched.ne_nil
        rw [List.length_take] at this
        omega
      constructor
      · intro hnone
        refine .inr ⟨length, lexeme, hmatch, ?_⟩
        by_contra hnext
        rw [recognise_of_longest hlongest hpos (all_mayPrecede_iff.2 hnext)] at hnone
        cases hnone
      · rintro (hnothing | ⟨length', lexeme', hmatch', hruns⟩)
        · exact absurd hmatch.matched (hnothing lexeme _ (List.take_prefix length rest))
        · obtain ⟨rfl, rfl⟩ := hmatch.unique hmatch'
          cases hfound : recognise rest with
          | none => rfl
          | some found =>
              obtain ⟨hmatch', hnext⟩ := (recognise_eq_some_iff hinline found).1 hfound
              obtain ⟨rfl, rfl⟩ := hmatch.unique hmatch'
              exact absurd hruns hnext

end Lexeme

/-- No name is spelled as a fixed word. -/
theorem spelling?_ne_of_isFreeName {name : String} (h : isFreeName name = true) (kind : Token.Kind) :
    kind.spelling? ≠ some name.toList := by
  intro hspelling
  obtain ⟨c, cs, hchars, -, -, hfree⟩ := Lexeme.exists_of_isFreeName h
  exact hfree _ (Lexeme.mem_fixed_of_spelling? hspelling) hchars

open Lexeme in
/-- In a line, the longest match at a place is recognised, a fixed word before a name of its length. It is refused
exactly where nothing matches, or where a word or a numeral runs into a name, or the word that returns from a
function stands before anything but a space. So no name of a text is a fixed word. -/
theorem recognises_longest {rest : List Char} (hinline : '\n' ∉ rest) :
    (∀ found : Found, recognise rest = some found
      ↔ LongestMatch rest found.length found.lexeme ∧ ¬ found.lexeme.RunsInto (rest.drop found.length))
    ∧ (recognise rest = none ↔ (∀ lexeme word, word ≠ [] → word <+: rest → ¬ Matches lexeme word)
      ∨ ∃ length lexeme, LongestMatch rest length lexeme ∧ lexeme.RunsInto (rest.drop length))
    ∧ ∀ source t name, t ∈ (Stream.ofSource source).tokens → t.token.kind = .identifier name →
      ∀ kind : Token.Kind, kind.spelling? ≠ some name.toList := by
  refine ⟨recognise_eq_some_iff hinline, ?_, ?_⟩
  · have hnonempty : (∀ lexeme word, word ≠ [] → word <+: rest → ¬ Matches lexeme word)
        ↔ ∀ lexeme word, word <+: rest → ¬ Matches lexeme word :=
      ⟨fun h lexeme word hword hmatch => h lexeme word hmatch.ne_nil hword hmatch,
        fun h lexeme word _ hword => h lexeme word hword⟩
    rw [hnonempty]
    exact recognise_eq_none_iff hinline
  · intro source t name ht hname kind
    exact spelling?_ne_of_isFreeName (Stream.isFreeName_of_mem ht hname) kind

open Lexeme in
/-- A name where the words for "otherwise" break off, and a word before a tab, which is refused there. -/
theorem recognises_longest_otherwise :
    let rest := "w przeciwnym razem".toList
    let rest' := "zwróć\tx".toList
    '\n' ∉ rest ∧ LongestMatch rest 1 (.token (.identifier "w"))
      ∧ '\n' ∉ rest'
      ∧ ∃ length lexeme, LongestMatch rest' length lexeme ∧ lexeme.RunsInto (rest'.drop length) := by
  intro rest rest'
  have hinline : '\n' ∉ rest := by decide
  have hinline' : '\n' ∉ rest' := by decide
  have hfound : recognise rest = some ⟨1, .token (.identifier "w"), Nat.one_pos⟩ := by rfl
  have hnone : recognise rest' = none := by rfl
  have hmatches : Matches (.token (.keyword .return_)) "zwróć".toList := .fixed rfl
  refine ⟨hinline, (((recognises_longest hinline).1 _).1 hfound).1, hinline', ?_⟩
  refine ((recognises_longest hinline').2.1.1 hnone).resolve_left fun hnothing => ?_
  exact hnothing _ _ hmatches.ne_nil (by decide) hmatches

end PolishPseudocode
