import PolishPseudocode.Token.Lexeme

/-! Which lexeme stands next. The class of the first character leaves few candidates, and the fixed words
are told apart from names and from each other by the character behind them. -/

namespace PolishPseudocode

/-! ### Classes of characters -/

theorem toNat_of_isDigit {c : Char} (h : c.isDigit = true) : 48 ≤ c.toNat ∧ c.toNat ≤ 57 := by
  simpa [Char.isDigit, UInt32.le_iff_toNat_le] using h

theorem toNat_of_isNameStart {c : Char} (h : isNameStart c = true) : 65 ≤ c.toNat ∧ c.toNat ≤ 122 := by
  change ((decide ('A'.val ≤ c.val ∧ c.val ≤ 'Z'.val)
    || decide ('a'.val ≤ c.val) && decide (c.val ≤ 'z'.val)) || c == '_') = true at h
  simp only [UInt32.le_iff_toNat_le, Bool.or_eq_true, Bool.and_eq_true, decide_eq_true_eq, beq_iff_eq] at h
  rcases h with (⟨h, h'⟩ | ⟨h, h'⟩) | rfl
  · exact ⟨h, Nat.le_trans h' (by decide)⟩
  · exact ⟨Nat.le_trans (by decide) h, h'⟩
  · decide

/-- A blank is a control character, the space or beyond ASCII. -/
theorem toNat_of_isBlank {c : Char} (h : isBlank c = true) : c.toNat ≤ 32 ∨ 128 ≤ c.toNat := by
  simp only [isBlank, blankRanges, List.any_cons, List.any_nil, Bool.or_false, Bool.or_eq_true,
    Bool.and_eq_true, decide_eq_true_eq] at h
  omega

theorem isNameChar_of_isNameStart {c : Char} (h : isNameStart c = true) : isNameChar c = true := by
  simp only [isNameStart, isNameChar, Char.isAlphanum, Bool.or_eq_true] at h ⊢
  rcases h with h | h
  · exact .inl (.inl h)
  · exact .inr h

theorem isDigit_eq_false_of_isBlank {c : Char} (h : isBlank c = true) : c.isDigit = false := by
  rw [Bool.eq_false_iff]
  intro hdigit
  have := toNat_of_isBlank h
  have := toNat_of_isDigit hdigit
  omega

theorem isNameStart_eq_false_of_isBlank {c : Char} (h : isBlank c = true) : isNameStart c = false := by
  rw [Bool.eq_false_iff]
  intro hname
  have := toNat_of_isBlank h
  have := toNat_of_isNameStart hname
  omega

theorem isNameStart_eq_false_of_isDigit {c : Char} (h : c.isDigit = true) : isNameStart c = false := by
  rw [Bool.eq_false_iff]
  intro hname
  have := toNat_of_isDigit h
  have := toNat_of_isNameStart hname
  omega

theorem isBlank_eq_false_of_isNameStart {c : Char} (h : isNameStart c = true) : isBlank c = false := by
  rw [Bool.eq_false_iff]
  intro hblank
  rw [isNameStart_eq_false_of_isBlank hblank] at h
  cases h

theorem isBlank_eq_false_of_isDigit {c : Char} (h : c.isDigit = true) : isBlank c = false := by
  rw [Bool.eq_false_iff]
  intro hblank
  rw [isDigit_eq_false_of_isBlank hblank] at h
  cases h

namespace Lexeme

/-! ### Candidates -/

variable {c : Char} {rest : List Char}

theorem blankMatch_eq_zero (h : isBlank c = false) : (blankMatch (c :: rest)).1 = 0 := by
  simp [blankMatch, h]

theorem commentMatch_eq_zero (h : c ≠ '#') : (commentMatch (c :: rest)).1 = 0 := by
  simp [commentMatch, h]

theorem numeralMatch_eq_zero (h : c.isDigit = false) : (numeralMatch (c :: rest)).1 = 0 := by
  simp [numeralMatch, h]

theorem identifierMatch_eq_zero (h : isNameStart c = false) : (identifierMatch (c :: rest)).1 = 0 := by
  simp [identifierMatch, h]

/-- No fixed word starts with a blank, a hash, a quote or a digit. -/
theorem fixed_head : ∀ x ∈ fixed, ∀ c ∈ x.1.head?,
    isBlank c = false ∧ c ≠ '#' ∧ c ≠ '"' ∧ c.isDigit = false := by
  intro x hx c hc
  have hall : ∀ x ∈ fixed, x.1.head?.all (fun c => !isBlank c && c != '#' && c != '"' && !c.isDigit) = true := by
    decide
  have hfirst := hall x hx
  rw [Option.mem_def.1 hc] at hfirst
  simpa [and_assoc] using hfirst

theorem fixed_ne_nil : ∀ x ∈ fixed, x.1 ≠ [] := by
  decide

/-- No fixed word matches at a character that starts none. -/
theorem filter_fixed_eq_nil (h : ∀ x ∈ fixed, c ∉ x.1.head?) :
    fixed.filter (fun x => x.1.isPrefixOf (c :: rest)) = [] := by
  rw [List.filter_eq_nil_iff]
  intro x hx hmatch
  obtain ⟨first, word, hword⟩ := List.exists_cons_of_ne_nil (fixed_ne_nil x hx)
  rw [hword, List.isPrefixOf_cons_cons] at hmatch
  have hfirst : first = c := by simpa using (Bool.and_eq_true_iff.1 hmatch).1
  exact h x hx (by simp [hword, hfirst])

theorem candidates_of_isBlank (h : isBlank c = true) :
    candidates (c :: rest) = [blankMatch (c :: rest)] := by
  have hfixed : ∀ x ∈ fixed, c ∉ x.1.head? := by
    intro x hx hc
    have := (fixed_head x hx c hc).1
    simp [h] at this
  have hblank : 0 < (blankMatch (c :: rest)).1 := by simp [blankMatch, h]
  have hcomment : (commentMatch (c :: rest)).1 = 0 := by
    refine commentMatch_eq_zero ?_
    rintro rfl
    exact absurd h (by decide)
  have hnumeral : (numeralMatch (c :: rest)).1 = 0 :=
    numeralMatch_eq_zero (isDigit_eq_false_of_isBlank h)
  have hname : (identifierMatch (c :: rest)).1 = 0 :=
    identifierMatch_eq_zero (isNameStart_eq_false_of_isBlank h)
  simp [candidates, filter_fixed_eq_nil hfixed, hblank, hcomment, hnumeral, hname]

theorem candidates_of_hash : candidates ('#' :: rest) = [commentMatch ('#' :: rest)] := by
  have hfixed : ∀ x ∈ fixed, '#' ∉ x.1.head? := fun x hx hc => (fixed_head x hx _ hc).2.1 rfl
  have hcomment : 0 < (commentMatch ('#' :: rest)).1 := by simp [commentMatch]
  have hblank : (blankMatch ('#' :: rest)).1 = 0 := blankMatch_eq_zero (by decide)
  have hnumeral : (numeralMatch ('#' :: rest)).1 = 0 := numeralMatch_eq_zero (by decide)
  have hname : (identifierMatch ('#' :: rest)).1 = 0 := identifierMatch_eq_zero (by decide)
  simp [candidates, filter_fixed_eq_nil hfixed, hblank, hcomment, hnumeral, hname]

theorem mem_of_longest {found : Nat × Lexeme} {cs : List (Nat × Lexeme)} (h : longest cs = some found) :
    found ∈ cs := by
  induction cs with
  | nil => cases h
  | cons c cs ih =>
      rw [longest] at h
      split at h
      · cases h
        exact List.mem_cons_self
      · rename_i best hbest
        split at h
        · cases h
          exact List.mem_cons_of_mem _ (ih hbest)
        · cases h
          exact List.mem_cons_self

theorem recognise_of_longest {rest : List Char} {length : Nat} {lexeme : Lexeme}
    (h : longest (candidates rest) = some (length, lexeme)) (hpos : 0 < length)
    (hnext : (rest.drop length).head?.all (lexeme.mayPrecede ·) = true) :
    recognise rest = some ⟨length, lexeme, hpos⟩ := by
  rw [recognise, h]
  simp only [dif_pos (And.intro hpos hnext)]

/-- A run of blanks is passed over as a whole. -/
theorem recognise_of_isBlank (rest : List Char) (h : isBlank c = true) :
    ∃ hpos, recognise (c :: rest)
      = some ⟨((c :: rest).takeWhile isBlank).length, .blank, hpos⟩ := by
  have hpos : 0 < ((c :: rest).takeWhile isBlank).length := by simp [h]
  refine ⟨hpos, recognise_of_longest ?_ hpos ?_⟩
  · rw [candidates_of_isBlank h]
    rfl
  · cases (List.drop _ (c :: rest)).head? <;> rfl

/-- A comment is passed over to the end of the line. -/
theorem recognise_hash (rest : List Char) :
    ∃ hpos, recognise ('#' :: rest) = some ⟨rest.length + 1, .comment, hpos⟩ := by
  refine ⟨by omega, recognise_of_longest ?_ (by omega) ?_⟩
  · rw [candidates_of_hash]
    rfl
  · simp

end Lexeme

end PolishPseudocode
