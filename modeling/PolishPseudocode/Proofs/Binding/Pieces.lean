import Mathlib.Data.List.TakeWhile
import PolishPseudocode.Binding

/-! The pieces of a text: what is left without the blanks around it, between two delimiters, and before, between and
behind separators. Each cut is undone by the way of putting the pieces together again. -/

namespace PolishPseudocode

/-! ### Blanks around a text -/

/-- No blank is at either end. -/
def IsTrimmed (text : List Char) : Prop :=
  (∀ c ∈ text.head?, isBlank c = false) ∧ ∀ c ∈ text.getLast?, isBlank c = false

/-- A text with blanks around it. -/
def Padded (text padded : List Char) : Prop :=
  ∃ left right, left.all isBlank = true ∧ right.all isBlank = true ∧ padded = left ++ text ++ right

variable {text padded : List Char}

theorem isTrimmed_of_all (h : ∀ c ∈ text, isBlank c = false) : IsTrimmed text :=
  ⟨fun c hc => h c (List.mem_of_mem_head? hc), fun c hc => h c (List.mem_of_mem_getLast? hc)⟩

/-- What stands between two characters that are no blanks. -/
theorem isTrimmed_delimited {opening closing : Char} (hopening : isBlank opening = false)
    (hclosing : isBlank closing = false) (inner : List Char) : IsTrimmed (opening :: (inner ++ [closing])) := by
  refine ⟨fun c hc => ?_, fun c hc => ?_⟩
  · obtain rfl := Option.some.inj hc
    exact hopening
  · rw [← List.cons_append, List.getLast?_concat] at hc
    obtain rfl := Option.some.inj hc
    exact hclosing

theorem Padded.refl (text : List Char) : Padded text text :=
  ⟨[], [], rfl, rfl, (List.append_nil _).symm⟩

theorem Padded.mem (h : Padded text padded) {c : Char} (hc : isBlank c = false) : c ∈ padded ↔ c ∈ text := by
  obtain ⟨left, right, hleft, hright, rfl⟩ := h
  have hno : ∀ {side : List Char}, side.all isBlank = true → c ∉ side := fun hside hmem => by
    rw [List.all_eq_true.1 hside c hmem] at hc
    cases hc
  simp [hno hleft, hno hright]

theorem trimLeft_append {left : List Char} (hleft : left.all isBlank = true)
    (htext : ∀ c ∈ text.head?, isBlank c = false) : trimLeft (left ++ text) = text := by
  rw [trimLeft, List.dropWhile_append_of_pos (List.all_eq_true.1 hleft)]
  cases text with
  | nil => rfl
  | cons c text =>
      have hc := htext c rfl
      exact List.dropWhile_cons_of_neg (by rw [hc]; decide)

theorem trimRight_append {right : List Char} (hright : right.all isBlank = true)
    (htext : ∀ c ∈ text.getLast?, isBlank c = false) : trimRight (text ++ right) = text := by
  have hreverse : trimLeft (right.reverse ++ text.reverse) = text.reverse :=
    trimLeft_append (by rwa [List.all_reverse]) (by rwa [List.head?_reverse])
  rw [trimRight, List.reverse_append]
  rw [trimLeft] at hreverse
  rw [hreverse, List.reverse_reverse]

/-- Blanks around a text are dropped. -/
theorem Padded.trim_eq (h : Padded text padded) (htext : IsTrimmed text) : trim padded = text := by
  obtain ⟨left, right, hleft, hright, rfl⟩ := h
  obtain ⟨hhead, hlast⟩ := htext
  rw [trim, List.append_assoc]
  cases text with
  | nil =>
      have hall : (left ++ right).all isBlank = true := by rw [List.all_append, hleft, hright]; rfl
      have hnone : trimLeft (left ++ right ++ []) = [] := trimLeft_append hall (by simp)
      rw [List.append_nil] at hnone
      rw [List.nil_append, hnone]
      rfl
  | cons c text =>
      have hleftGone : trimLeft (left ++ (c :: text ++ right)) = c :: text ++ right := trimLeft_append hleft hhead
      rw [hleftGone, trimRight_append hright hlast]

/-- No other characters are dropped. -/
theorem mem_trim {c : Char} (hc : isBlank c = false) (h : c ∈ text) : c ∈ trim text := by
  have hdrop : ∀ {text : List Char}, c ∈ text → c ∈ text.dropWhile isBlank := by
    intro text hmem
    rw [← List.takeWhile_append_dropWhile (p := isBlank) (l := text)] at hmem
    rcases List.mem_append.1 hmem with hmem | hmem
    · exact absurd ((List.mem_takeWhile_imp hmem).symm.trans hc) (by decide)
    · exact hmem
  rw [trim, trimRight, List.mem_reverse, trimLeft]
  exact hdrop (List.mem_reverse.2 (hdrop h))

theorem IsTrimmed.trim_eq (h : IsTrimmed text) : trim text = text :=
  (Padded.refl text).trim_eq h

/-! ### Delimiters -/

theorem between?_of_head {opening closing c : Char} (h : c ≠ opening) :
    between? opening closing (c :: text) = none := by
  rw [between?, if_neg fun hand => h hand.1]

theorem between?_delimited (opening closing : Char) (inner : List Char) :
    between? opening closing (opening :: (inner ++ [closing])) = some inner := by
  rw [between?, if_pos ⟨rfl, List.getLast?_concat⟩, List.dropLast_concat]

theorem unquote?_of_head {c : Char} (h : c ≠ '"') : unquote? (c :: text) = none := by
  rw [unquote?, between?_of_head h]
  rfl

theorem unquote?_quoted {inner : List Char} (h : '"' ∉ inner) : unquote? ('"' :: (inner ++ ['"'])) = some inner := by
  rw [unquote?, between?_delimited, Option.filter_some, if_pos (by simpa using h)]

/-! ### Separators -/

theorem splitAtEach_eq_splitOn (separator : Char) (text : List Char) :
    splitAtEach separator text = text.splitOn separator := by
  induction text with
  | nil => rfl
  | cons c text ih =>
      rw [splitAtEach, ih, List.splitOn_cons_eq_if_modifyHead]
      by_cases hc : c = separator
      · rw [if_pos hc, if_pos (beq_iff_eq.2 hc)]
      · rw [if_neg hc, if_neg fun h => hc (beq_iff_eq.1 h)]
        cases hpieces : text.splitOn separator with
        | nil => exact absurd hpieces (List.splitOn_ne_nil _ _)
        | cons piece pieces => rfl

/-- Pieces without the separator, one at least, are what is between the separators of the text that they make. -/
theorem splitAtEach_intercalate {separator : Char} {pieces : List (List Char)} (hne : pieces ≠ [])
    (h : ∀ piece ∈ pieces, separator ∉ piece) : splitAtEach separator ([separator].intercalate pieces) = pieces := by
  rw [splitAtEach_eq_splitOn]
  exact List.splitOn_intercalate separator h hne

theorem splitAtFirst?_eq_none_iff {separator : Char} : splitAtFirst? separator text = none ↔ separator ∉ text := by
  induction text with
  | nil => simp [splitAtFirst?]
  | cons c text ih =>
      rw [splitAtFirst?]
      by_cases hc : c = separator
      · simp [hc]
      · rw [if_neg hc, Option.map_eq_none_iff, ih, List.mem_cons, not_or]
        exact (and_iff_right (Ne.symm hc)).symm

/-- A text is cut at the separator behind what has none. -/
theorem splitAtFirst?_eq_some_iff {separator : Char} {before after : List Char} :
    splitAtFirst? separator text = some (before, after)
      ↔ text = before ++ separator :: after ∧ separator ∉ before := by
  induction text generalizing before with
  | nil => simp [splitAtFirst?]
  | cons c text ih =>
      rw [splitAtFirst?]
      by_cases hc : c = separator
      · subst hc
        rw [if_pos rfl]
        cases before with
        | nil => simp [eq_comm]
        | cons b before =>
            simp only [Option.some.injEq, Prod.mk.injEq, List.cons_append, List.cons.injEq, List.mem_cons, not_or]
            constructor
            · rintro ⟨h, -⟩
              cases h
            · rintro ⟨⟨h, -⟩, h', -⟩
              exact absurd h h'
      · rw [if_neg hc]
        cases before with
        | nil => simp [hc]
        | cons b before =>
            rw [Option.map_eq_some_iff]
            constructor
            · rintro ⟨⟨before', after'⟩, hcut, heq⟩
              cases heq
              obtain ⟨rfl, hno⟩ := ih.1 hcut
              exact ⟨rfl, by simp [Ne.symm hc, hno]⟩
            · rintro ⟨heq, hno⟩
              obtain ⟨rfl, rfl⟩ := List.cons.inj heq
              exact ⟨_, ih.2 ⟨rfl, fun hmem => hno (List.mem_cons_of_mem _ hmem)⟩, rfl⟩

end PolishPseudocode
