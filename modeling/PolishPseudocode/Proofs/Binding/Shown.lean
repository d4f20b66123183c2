import Mathlib.Data.List.Forall2
import PolishPseudocode.Proofs.Binding.Scalars

/-! Shown values are read back. A number is shown as a decimal, a truth value as its word, a text in double quotes and
an array of such values in brackets, with commas between and blanks around its elements. A starting variable written
as its name, an equals sign and its shown value, with blanks around both, is read as that name and that value. -/

namespace PolishPseudocode

variable {v : Datum} {text shown padded : List Char}

/-! ### How values are shown -/

/-- How a number, a truth value and a text are shown. -/
inductive ShowsScalar : Datum → List Char → Prop
  | positive (n : Numeral) : ShowsScalar (.number n.value) n.text
  | negative (n : Numeral) : ShowsScalar (.number (-n.value)) ('-' :: n.text)
  | bool (b : Bool) : ShowsScalar (.bool b) (boolText b).toList
  | text {content : List Char} (hquote : '"' ∉ content) :
      ShowsScalar (.text (String.ofList content)) ('"' :: (content ++ ['"']))

/-- How an element of an array is shown: it may have blanks around it, and a text has no comma in it. -/
def ShowsElement (v : Datum) (piece : List Char) : Prop :=
  ∃ shown, ShowsScalar v shown ∧ (∀ s, v = .text s → ',' ∉ s.toList) ∧ Padded shown piece

inductive Shows : Datum → List Char → Prop
  | scalar {v : Datum} {shown : List Char} (h : ShowsScalar v shown) : Shows v shown
  | array {elements : List Datum} {pieces : List (List Char)} (h : List.Forall₂ ShowsElement elements pieces) :
      Shows (.array elements) ('[' :: ([','].intercalate pieces ++ [']']))

/-! ### Scalars -/

namespace ShowsScalar

theorem ne_nil (h : ShowsScalar v shown) : shown ≠ [] := by
  cases h with
  | positive n =>
      obtain ⟨c, cs, htext, -⟩ := n.exists_text_eq_cons
      rw [htext]
      exact List.cons_ne_nil c cs
  | negative n => exact List.cons_ne_nil _ _
  | bool b => cases b <;> decide
  | text hquote => exact List.cons_ne_nil _ _

theorem isTrimmed (h : ShowsScalar v shown) : IsTrimmed shown := by
  cases h with
  | positive n => exact isTrimmed_of_decimal? n.decimal?_text
  | negative n => exact isTrimmed_of_decimal? n.decimal?_minus
  | bool b =>
      have hnone : (boolText b).toList.any isBlank = false := by cases b <;> decide
      exact isTrimmed_of_all fun c hc => Bool.eq_false_iff.2 (List.any_eq_false.1 hnone c hc)
  | text hquote => exact isTrimmed_delimited (by decide) (by decide) _

/-- There is a comma in what is shown only within a text. -/
theorem comma_notMem (h : ShowsScalar v shown) (htext : ∀ s, v = .text s → ',' ∉ s.toList) : ',' ∉ shown := by
  have hdecimal : ∀ {text : List Char} {x : Float}, decimal? text = some x → ',' ∉ text := fun h hmem =>
    absurd (mem_of_decimal? h hmem) (by decide)
  cases h with
  | positive n => exact hdecimal n.decimal?_text
  | negative n => exact hdecimal n.decimal?_minus
  | bool b => cases b <;> decide
  | text hquote =>
      have hcontent := htext _ rfl
      rw [String.toList_ofList] at hcontent
      simp [hcontent]

/-- A shown scalar is read back, whatever blanks are around it. -/
theorem scalar_eq (h : ShowsScalar v shown) (hpadded : Padded shown padded) : Datum.scalar padded = v := by
  have htrim : Datum.scalar padded = Datum.scalar shown := by
    rw [Datum.scalar, Datum.scalar, hpadded.trim_eq h.isTrimmed, h.isTrimmed.trim_eq]
  rw [htrim]
  cases h with
  | positive n => exact Datum.scalar_of_decimal? n.decimal?_text
  | negative n => exact Datum.scalar_of_decimal? n.decimal?_minus
  | bool b => cases b <;> rfl
  | @text content hquote =>
      have hword : ∀ b, '"' :: (content ++ ['"']) ≠ (boolText b).toList := fun b heq => by
        have hmem : '"' ∈ (boolText b).toList := heq ▸ List.mem_cons_self
        cases b <;> exact absurd hmem (by decide)
      have hdecimal : decimal? ('"' :: (content ++ ['"'])) = none :=
        Option.eq_none_iff_forall_ne_some.2 fun x hx => absurd (mem_of_decimal? hx List.mem_cons_self) (by decide)
      rw [Datum.scalar, (ShowsScalar.text hquote).isTrimmed.trim_eq, if_neg (hword true), if_neg (hword false),
        hdecimal, unquote?_quoted hquote]
      rfl

end ShowsScalar

/-! ### Values -/

theorem Datum.ofText_of_trim {text' : List Char} (h : trim text = trim text') :
    ofText (String.ofList text) = ofText (String.ofList text') := by
  rw [ofText, ofText, String.toList_ofList, String.toList_ofList, h]

/-- Shown elements are read back from what is between the commas. -/
theorem map_scalar_of_shows {elements : List Datum} {pieces : List (List Char)}
    (h : List.Forall₂ ShowsElement elements pieces) : pieces.map Datum.scalar = elements := by
  induction h with
  | nil => rfl
  | cons helement _ ih =>
      obtain ⟨shown, hshown, -, hpadded⟩ := helement
      rw [List.map_cons, hshown.scalar_eq hpadded, ih]

theorem comma_notMem_of_shows {elements : List Datum} {pieces : List (List Char)}
    (h : List.Forall₂ ShowsElement elements pieces) : ∀ piece ∈ pieces, ',' ∉ piece := by
  induction h with
  | nil => simp
  | cons helement _ ih =>
      obtain ⟨shown, hshown, htext, hpadded⟩ := helement
      refine List.forall_mem_cons.2 ⟨?_, ih⟩
      rw [hpadded.mem (by decide)]
      exact hshown.comma_notMem htext

/-- Shown elements, one at least, are more than blanks. -/
theorem trim_intercalate_ne_nil {elements : List Datum} {pieces : List (List Char)}
    (h : List.Forall₂ ShowsElement elements pieces) (hne : elements ≠ []) : trim ([','].intercalate pieces) ≠ [] := by
  cases h with
  | nil => exact absurd rfl hne
  | @cons _ piece _ pieces helement _ =>
      obtain ⟨shown, hshown, -, hpadded⟩ := helement
      obtain ⟨c, cs, rfl⟩ := List.exists_cons_of_ne_nil hshown.ne_nil
      have hc : isBlank c = false := hshown.isTrimmed.1 c rfl
      have hpiece : c ∈ piece := (hpadded.mem hc).2 List.mem_cons_self
      have hmem : c ∈ [','].intercalate (piece :: pieces) := by
        cases pieces with
        | nil => rwa [List.intercalate_singleton]
        | cons =>
            rw [List.intercalate_cons_cons, List.append_assoc]
            exact List.mem_append_left _ hpiece
      exact List.ne_nil_of_mem (mem_trim hc hmem)

theorem Shows.isTrimmed (h : Shows v shown) : IsTrimmed shown := by
  cases h with
  | scalar h => exact h.isTrimmed
  | array h => exact isTrimmed_delimited (by decide) (by decide) _

/-- A shown value is read back. -/
theorem Shows.ofText_eq (h : Shows v shown) : Datum.ofText (String.ofList shown) = v := by
  cases h with
  | scalar h =>
      cases h with
      | positive n => exact Datum.ofText_of_decimal? n.decimal?_text
      | negative n => exact Datum.ofText_of_decimal? n.decimal?_minus
      | bool b => cases b <;> rfl
      | text hquote =>
          rw [Datum.ofText, String.toList_ofList, (ShowsScalar.text hquote).isTrimmed.trim_eq, unquote?_quoted hquote]
  | @array elements pieces h =>
      rw [Datum.ofText, String.toList_ofList, (Shows.array h).isTrimmed.trim_eq, unquote?_of_head (by decide),
        between?_delimited]
      dsimp only
      by_cases hne : elements = []
      · subst hne
        cases h
        rfl
      · have hpieces : pieces ≠ [] := by
          rintro rfl
          exact hne (List.forall₂_nil_right_iff.1 h)
        rw [if_neg (by simpa using trim_intercalate_ne_nil h hne),
          splitAtEach_intercalate hpieces (comma_notMem_of_shows h), map_scalar_of_shows h]

/-! ### Starting variables -/

theorem isBlank_eq_false_of_isNameChar {c : Char} (h : isNameChar c = true) : isBlank c = false := by
  rw [isNameChar, Char.isAlphanum, Bool.or_assoc, Bool.or_comm c.isDigit, ← Bool.or_assoc, Bool.or_eq_true] at h
  exact h.elim isBlank_eq_false_of_isNameStart isBlank_eq_false_of_isDigit

/-- A starting variable is read back, whatever blanks are around its name, its value and the elements of an array. -/
theorem readBinding_shown {name paddedName : List Char} (hname : isName name = true)
    (hpaddedName : Padded name paddedName) (hshown : Shows v shown) (hpadded : Padded shown padded) :
    readBinding (String.ofList (paddedName ++ '=' :: padded)) = .ok (String.ofList name, v) := by
  have hall : ∀ c ∈ name, isNameChar c = true := by
    rw [isName, Bool.and_eq_true] at hname
    exact List.all_eq_true.1 hname.2
  have htrimmed : IsTrimmed name := isTrimmed_of_all fun c hc => isBlank_eq_false_of_isNameChar (hall c hc)
  have hequals : '=' ∉ paddedName := by
    rw [hpaddedName.mem (by decide)]
    exact fun hmem => absurd (hall _ hmem) (by decide)
  have hvalue : Datum.ofText (String.ofList padded) = v := by
    rw [Datum.ofText_of_trim ((hpadded.trim_eq hshown.isTrimmed).trans hshown.isTrimmed.trim_eq.symm),
      hshown.ofText_eq]
  rw [readBinding, String.toList_ofList, splitAtFirst?_eq_some_iff.2 ⟨rfl, hequals⟩]
  dsimp only
  rw [hpaddedName.trim_eq htrimmed, if_pos hname, hvalue]

/-- An array of one element of each sort, with blanks. -/
theorem readBinding_shown_array :
    let name := "xs".toList
    let paddedName := " xs\t".toList
    let elements : List Datum :=
      [.number (numeralValue ['1'] ['5']), .number (-numeralValue ['2'] []), .bool true,
        .text (String.ofList "=[a".toList)]
    let pieces := [" 1.5".toList, "-2".toList, "PRAWDA ".toList, " \"=[a\" ".toList]
    let shown := '[' :: ([','].intercalate pieces ++ [']'])
    let padded := " ".toList ++ shown ++ "\n".toList
    isName name = true ∧ Padded name paddedName ∧ Shows (.array elements) shown ∧ Padded shown padded
      ∧ padded = " [ 1.5,-2,PRAWDA , \"=[a\" ]\n".toList
      ∧ readBinding (String.ofList (paddedName ++ '=' :: padded)) = .ok (String.ofList name, .array elements) := by
  intro name paddedName elements pieces shown padded
  have hname : isName name = true := by decide
  have hpaddedName : Padded name paddedName := ⟨[' '], ['\t'], by decide, by decide, by decide⟩
  have hpadded : Padded shown padded := ⟨[' '], ['\n'], by decide, by decide, rfl⟩
  have hshown : Shows (.array elements) shown := by
    refine .array (.cons ⟨"1.5".toList, ?_, by simp, [' '], [], by decide, by decide, by decide⟩ <|
      .cons ⟨"-2".toList, ?_, by simp, .refl _⟩ <|
      .cons ⟨"PRAWDA".toList, ?_, by simp, [], [' '], by decide, by decide, by decide⟩ <|
      .cons ⟨"\"=[a\"".toList, ?_, ?_, [' '], [' '], by decide, by decide, by decide⟩ .nil)
    · exact .positive ⟨['1'], ['5'], by decide, by decide, by decide⟩
    · exact .negative ⟨['2'], [], by decide, by decide, by decide⟩
    · exact .bool true
    · exact .text (by decide)
    · rintro s hs
      obtain rfl := Datum.text.inj hs
      decide
  exact ⟨hname, hpaddedName, hshown, hpadded, by decide, readBinding_shown hname hpaddedName hshown hpadded⟩

end PolishPseudocode
