import PolishPseudocode.Proofs.Binding.Pieces
import PolishPseudocode.Proofs.Token.Sole

/-! Scalars and names against tokens. A starting variable takes its numbers and its name from texts that are examined
as a whole; the program text takes them from lines that are read token by token. The decimals are the numerals with
an optional minus, and the names are the free names and the reserved words of ASCII letters. -/

namespace PolishPseudocode

variable {text : List Char}

/-! ### Decimals -/

theorem isDigits_eq_true_iff : isDigits text = true ↔ text ≠ [] ∧ text.all Char.isDigit = true := by
  rw [isDigits, Bool.and_eq_true, Bool.not_eq_true', List.isEmpty_eq_false_iff]

theorem point_notMem_of_all_isDigit (h : text.all Char.isDigit = true) : '.' ∉ text := fun hmem =>
  absurd (List.all_eq_true.1 h _ hmem) (by decide)

theorem Numeral.text_of_whole {n : Numeral} (h : n.fraction = []) : n.text = n.whole := by
  rw [text, h, if_pos List.isEmpty_nil]

theorem Numeral.text_of_fraction {n : Numeral} (h : n.fraction ≠ []) : n.text = n.whole ++ '.' :: n.fraction := by
  rw [text, if_neg (by simpa using h)]

/-- A numeral with a fraction is cut at its point. -/
theorem Numeral.splitAtFirst?_text (n : Numeral) :
    splitAtFirst? '.' n.text = if n.fraction = [] then none else some (n.whole, n.fraction) := by
  have hpoint := point_notMem_of_all_isDigit n.all_whole
  by_cases hfraction : n.fraction = []
  · rw [text_of_whole hfraction, if_pos hfraction, splitAtFirst?_eq_none_iff.2 hpoint]
  · rw [text_of_fraction hfraction, if_neg hfraction, splitAtFirst?_eq_some_iff.2 ⟨rfl, hpoint⟩]

/-- The decimals without a sign are the numerals. -/
theorem unsignedDecimal?_eq_some_iff {x : Float} :
    unsignedDecimal? text = some x ↔ ∃ n : Numeral, n.text = text ∧ n.value = x := by
  constructor
  · intro h
    rw [unsignedDecimal?] at h
    split at h
    · obtain ⟨hdigits, hx⟩ := Option.ite_none_right_eq_some.1 h
      obtain ⟨hne, hall⟩ := isDigits_eq_true_iff.1 hdigits
      exact ⟨⟨text, [], hne, hall, rfl⟩, rfl, Option.some.inj hx⟩
    · rename_i whole fraction hcut
      obtain ⟨hdigits, hx⟩ := Option.ite_none_right_eq_some.1 h
      rw [Bool.and_eq_true, isDigits_eq_true_iff, isDigits_eq_true_iff] at hdigits
      obtain ⟨⟨hwhole, hallWhole⟩, hfraction, hallFraction⟩ := hdigits
      refine ⟨⟨whole, fraction, hwhole, hallWhole, hallFraction⟩, ?_, Option.some.inj hx⟩
      rw [Numeral.text_of_fraction hfraction, (splitAtFirst?_eq_some_iff.1 hcut).1]
  · rintro ⟨n, rfl, rfl⟩
    have hwhole : isDigits n.whole = true := isDigits_eq_true_iff.2 ⟨n.whole_ne_nil, n.all_whole⟩
    rw [unsignedDecimal?, n.splitAtFirst?_text]
    by_cases hfraction : n.fraction = []
    · rw [if_pos hfraction]
      dsimp only
      rw [Numeral.text_of_whole hfraction, if_pos hwhole, Numeral.value, hfraction]
    · have hdigits : isDigits n.fraction = true := isDigits_eq_true_iff.2 ⟨hfraction, n.all_fraction⟩
      rw [if_neg hfraction]
      dsimp only
      rw [hwhole, hdigits, Bool.true_and, if_pos rfl, Numeral.value]

/-- A text without the minus that it may start with. -/
def unsigned : List Char → List Char
  | '-' :: text => text
  | text => text

/-- The number that a text denotes if it denotes `x` without its sign. -/
def signed (text : List Char) (x : Float) : Float :=
  if text.head? = some '-' then -x else x

theorem decimal?_eq (text : List Char) : decimal? text = (unsignedDecimal? (unsigned text)).map (signed text) := by
  have hplain : ∀ {text : List Char}, text.head? ≠ some '-' → signed text = id := fun h => funext fun x => if_neg h
  fun_cases decimal? text with
  | case1 text => exact congrArg (fun f => (unsignedDecimal? text).map f) (funext fun x => (if_pos rfl).symm)
  | case2 text hminus =>
      have hhead : text.head? ≠ some '-' := fun hhead => by
        obtain ⟨rest, rfl⟩ := List.head?_eq_some_iff.1 hhead
        exact hminus rest rfl
      have hunsigned : unsigned text = text := by
        unfold unsigned
        split
        · exact absurd rfl hhead
        · rfl
      rw [hplain hhead, Option.map_id_apply, hunsigned]

/-- The decimals are the texts that are one number behind an optional minus. -/
theorem decimal?_eq_some_iff {x : Float} :
    decimal? text = some x ↔ ∃ n : Numeral, n.text = unsigned text ∧ signed text n.value = x := by
  rw [decimal?_eq, Option.map_eq_some_iff]
  constructor
  · rintro ⟨y, hy, rfl⟩
    obtain ⟨n, hn, rfl⟩ := unsignedDecimal?_eq_some_iff.1 hy
    exact ⟨n, hn, rfl⟩
  · rintro ⟨n, hn, rfl⟩
    exact ⟨n.value, unsignedDecimal?_eq_some_iff.2 ⟨n, hn, rfl⟩, rfl⟩

theorem Numeral.decimal?_text (n : Numeral) : decimal? n.text = some n.value := by
  obtain ⟨c, cs, htext, hc⟩ := n.exists_text_eq_cons
  have hminus : c ≠ '-' := by
    rintro rfl
    exact absurd hc (by decide)
  refine decimal?_eq_some_iff.2 ⟨n, ?_, ?_⟩
  · rw [htext]
    unfold unsigned
    split
    · rename_i heq
      exact absurd (List.cons.inj heq).1 hminus
    · rfl
  · rw [signed, if_neg]
    rw [htext]
    exact fun heq => hminus (Option.some.inj heq)

theorem Numeral.decimal?_minus (n : Numeral) : decimal? ('-' :: n.text) = some (-n.value) :=
  decimal?_eq_some_iff.2 ⟨n, rfl, if_pos rfl⟩

/-- What stands in a decimal. -/
theorem mem_of_decimal? {x : Float} (h : decimal? text = some x) {c : Char} (hc : c ∈ text) :
    c.isDigit = true ∨ c = '.' ∨ c = '-' := by
  obtain ⟨n, hn, -⟩ := decimal?_eq_some_iff.1 h
  unfold unsigned at hn
  split at hn
  · rcases List.mem_cons.1 hc with rfl | hc
    · exact .inr (.inr rfl)
    · rw [← hn] at hc
      exact (n.mem_text hc).imp_right .inl
  · rw [← hn] at hc
    exact (n.mem_text hc).imp_right .inl

theorem isTrimmed_of_decimal? {x : Float} (h : decimal? text = some x) : IsTrimmed text := by
  refine isTrimmed_of_all fun c hc => ?_
  rcases mem_of_decimal? h hc with hdigit | rfl | rfl
  · exact isBlank_eq_false_of_isDigit hdigit
  · decide
  · decide

/-- A decimal is read as its number. -/
theorem Datum.scalar_of_decimal? {x : Float} (h : decimal? text = some x) : Datum.scalar text = .number x := by
  have hword : ∀ b, text ≠ (boolText b).toList := by
    rintro b rfl
    have hletter : 'A' ∈ (boolText b).toList := by cases b <;> decide +kernel
    exact absurd (mem_of_decimal? h hletter) (by decide)
  rw [scalar, (isTrimmed_of_decimal? h).trim_eq, if_neg (hword true), if_neg (hword false), h]

/-- A decimal is read as its number where a value is expected, too. -/
theorem Datum.ofText_of_decimal? {x : Float} (h : decimal? text = some x) :
    ofText (String.ofList text) = .number x := by
  have hhead : ∀ c ∈ text.head?, c ≠ '"' ∧ c ≠ '[' := by
    rintro c hc
    rcases mem_of_decimal? h (List.mem_of_mem_head? hc) with hdigit | rfl | rfl
    · constructor <;> rintro rfl <;> exact absurd hdigit (by decide)
    · decide
    · decide
  have hcomma : text.contains ',' = false := by
    rw [List.contains_eq_mem, decide_eq_false_iff_not]
    exact fun hmem => absurd (mem_of_decimal? h hmem) (by decide)
  rw [ofText, String.toList_ofList, (isTrimmed_of_decimal? h).trim_eq]
  cases text with
  | nil => cases h
  | cons c cs =>
      rw [unquote?_of_head (hhead c rfl).1, between?_of_head (hhead c rfl).2]
      dsimp only
      rw [hcomma, if_neg (by decide), scalar_of_decimal? h]

/-! ### Names -/

/-- The reserved words of ASCII letters. -/
def asciiWords : List (List Char) :=
  ["dla", "to", "wykonuj", "wypisz", "funkcja", "PRAWDA", "div", "mod", "oraz", "lub", "nie"].map String.toList

theorem isName_of_mem_asciiWords : ∀ word ∈ asciiWords, isName word = true := by
  decide +kernel

theorem mem_asciiWords_of_fixed : ∀ x ∈ Lexeme.fixed, isName x.1 = true → x.1 ∈ asciiWords := by
  decide +kernel

/-- The names are the free names and the reserved words that look like names. -/
theorem isName_iff : isName text = true ↔ isFreeName (String.ofList text) = true ∨ text ∈ asciiWords := by
  constructor
  · intro h
    by_cases hword : text ∈ asciiWords
    · exact .inr hword
    · refine .inl ?_
      have hfixed : Lexeme.fixed.any (·.1 == text) = false := by
        rw [List.any_eq_false]
        intro x hx heq
        obtain rfl := eq_of_beq heq
        exact hword (mem_asciiWords_of_fixed x hx h)
      rw [isName] at h
      rw [isFreeName, String.toList_ofList]
      cases text with
      | nil => cases h
      | cons c cs =>
          rw [List.head?_cons, Option.any_some, List.all_cons, Bool.and_eq_true, Bool.and_eq_true] at h
          obtain ⟨hstart, -, hall⟩ := h
          dsimp only
          rw [hstart, hall, hfixed]
          rfl
  · rintro (h | h)
    · obtain ⟨c, cs, hchars, hstart, hall, -⟩ := Lexeme.exists_of_isFreeName h
      rw [String.toList_ofList] at hchars
      rw [isName, hchars, List.head?_cons, Option.any_some, hstart, hall]
      rfl
    · exact isName_of_mem_asciiWords text h

/-! ### Agreement -/

/-- Starting variables and program texts agree on what is a number, which number it is, and what is a name. -/
theorem scalars_agree_with_tokens (text : List Char) :
    ((decimal? text).isSome = true ↔ ∃ x, IsSoleToken (unsigned text) (.number x))
      ∧ (∀ x, IsSoleToken (unsigned text) (.number x) → Datum.scalar text = .number (signed text x))
      ∧ (isName text = true ↔ IsSoleToken text (.identifier (String.ofList text)) ∨ text ∈ asciiWords) := by
  refine ⟨?_, fun x h => ?_, ?_⟩
  · rw [Option.isSome_iff_exists]
    constructor
    · rintro ⟨x, h⟩
      obtain ⟨n, hn, -⟩ := decimal?_eq_some_iff.1 h
      exact ⟨n.value, isSoleToken_number_iff.2 ⟨n, hn, rfl⟩⟩
    · rintro ⟨x, h⟩
      obtain ⟨n, hn, -⟩ := isSoleToken_number_iff.1 h
      exact ⟨_, decimal?_eq_some_iff.2 ⟨n, hn, rfl⟩⟩
  · obtain ⟨n, hn, rfl⟩ := isSoleToken_number_iff.1 h
    exact Datum.scalar_of_decimal? (decimal?_eq_some_iff.2 ⟨n, hn, rfl⟩)
  · rw [isSoleToken_identifier_iff, String.toList_ofList, isName_iff]
    exact or_congr_left (and_iff_left rfl).symm

/-- Four and a half with a sign and a zero more than needed. -/
theorem scalars_agree_with_tokens_negative :
    let text := "-4.50".toList
    let x := numeralValue ['4'] ['5', '0']
    IsSoleToken (unsigned text) (.number x) ∧ (decimal? text).isSome = true ∧ Datum.scalar text = .number (-x)
      ∧ (-x).toBits = 0xC012000000000000 ∧ isName text = false := by
  intro text x
  have hsole : IsSoleToken (unsigned text) (.number x) :=
    isSoleToken_number_iff.2 ⟨⟨['4'], ['5', '0'], by decide, by decide, by decide⟩, rfl, rfl⟩
  obtain ⟨hdecimal, hscalar, -⟩ := scalars_agree_with_tokens text
  exact ⟨hsole, hdecimal.2 ⟨x, hsole⟩, hscalar x hsole, by decide +kernel, by decide +kernel⟩

end PolishPseudocode
