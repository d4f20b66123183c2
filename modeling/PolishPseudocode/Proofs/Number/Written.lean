import PolishPseudocode.Number.Written
import PolishPseudocode.Proofs.Binding.Scalars
import PolishPseudocode.Proofs.Number.Shortest

/-! The written form of a number, read back. Up to its sign it is a numeral, or a numeral with an exponent; either
denotes one number only, and this number rounds to the one that was written. So a number in positional notation is read
back by a starting variable and as a token of a program, and two numbers are written alike only if they are equal. -/

namespace PolishPseudocode

/-! ### Digits -/

theorem digitsValue_append (xs ys : List Char) :
    digitsValue (xs ++ ys) = digitsValue xs * 10 ^ ys.length + digitsValue ys := by
  have hfrom (n : Nat) : ys.foldl (fun n c => 10 * n + (c.toNat - '0'.toNat)) n
      = n * 10 ^ ys.length + digitsValue ys := by
    rw [digitsValue]
    induction ys generalizing n with
    | nil => simp
    | cons c ys ih =>
      rw [List.foldl_cons, List.foldl_cons, ih, ih (10 * 0 + _), List.length_cons]
      ring
  rw [digitsValue, List.foldl_append]
  exact hfrom _

theorem digitsValue_replicate_zero (n : Nat) : digitsValue (List.replicate n '0') = 0 := by
  induction n with
  | zero => rfl
  | succ n ih =>
    rw [List.replicate_succ']
    rw [digitsValue_append, ih]
    rfl

theorem digitsValue_toDigits (n : Nat) : digitsValue (Nat.toDigits 10 n) = n :=
  Nat.ofDigitChars_toDigits (by norm_num) (le_refl _)

theorem all_isDigit_toDigits (n : Nat) : (Nat.toDigits 10 n).all Char.isDigit = true :=
  List.all_eq_true.2 fun _ hc => Nat.isDigit_of_mem_toDigits (by norm_num) (le_refl _) hc

namespace Numeral

def rational (n : Numeral) : ℚ :=
  digitsValue (n.whole ++ n.fraction) / 10 ^ n.fraction.length

/-- The double of a numeral stands for the number that it denotes, rounded. -/
theorem value?_value (n : Numeral) (h : Number.rounded n.rational < 2 ^ (1024 : Int)) :
    Number.value? n.value = some (Number.rounded n.rational) := by
  have hcast : n.rational = (digitsValue (n.whole ++ n.fraction) : ℚ) / ((10 ^ n.fraction.length : Nat) : ℚ) := by
    rw [rational]
    push_cast
    rfl
  rw [hcast] at h ⊢
  exact Number.value?_nearest false _ (Nat.pow_pos (by norm_num)) h

/-- A numeral is given by its text. -/
theorem rational_eq_of_text {n n' : Numeral} (h : n.text = n'.text) : n.rational = n'.rational := by
  have hcut := n.splitAtFirst?_text
  rw [h, n'.splitAtFirst?_text] at hcut
  by_cases hfraction : n.fraction = [] <;> by_cases hfraction' : n'.fraction = []
  · rw [text_of_whole hfraction, text_of_whole hfraction'] at h
    rw [rational, rational, h, hfraction, hfraction']
  · rw [if_pos hfraction, if_neg hfraction'] at hcut
    cases hcut
  · rw [if_neg hfraction, if_pos hfraction'] at hcut
    cases hcut
  · rw [if_neg hfraction, if_neg hfraction'] at hcut
    obtain ⟨hwhole, hfraction⟩ := Prod.mk.inj (Option.some.inj hcut)
    rw [rational, rational, hwhole, hfraction]

theorem exponent_notMem_text (n : Numeral) : 'e' ∉ n.text := fun h => absurd (n.mem_text h) (by decide)

end Numeral

/-! ### Notations -/

def exponentText (k : Int) : List Char :=
  'e' :: (if k < 0 then '-' else '+') :: Nat.toDigits 10 k.natAbs

theorem exponentText_inj {j k : Int} (h : exponentText j = exponentText k) : j = k := by
  obtain ⟨-, htail⟩ := List.cons.inj h
  obtain ⟨hsign, hdigits⟩ := List.cons.inj htail
  have habs : j.natAbs = k.natAbs := by
    have hvalue := congrArg digitsValue hdigits
    rwa [digitsValue_toDigits, digitsValue_toDigits] at hvalue
  split_ifs at hsign <;> first | omega | cases hsign

/-- The number that a text without a sign denotes: a numeral, which an exponent may follow. -/
inductive Denotes : List Char → ℚ → Prop
  | positional (n : Numeral) : Denotes n.text n.rational
  | scientific (n : Numeral) (k : Int) : Denotes (n.text ++ exponentText k) (n.rational * 10 ^ k)

namespace Denotes

variable {text : List Char} {p q : ℚ}

/-- A text denotes one number at most. -/
theorem unique (hp : Denotes text p) (hq : Denotes text q) : p = q := by
  have hcut (n : Numeral) (k : Int) :
      splitAtFirst? 'e' (n.text ++ exponentText k) = some (n.text, (exponentText k).tail) :=
    splitAtFirst?_eq_some_iff.2 ⟨rfl, n.exponent_notMem_text⟩
  generalize htext : text = text' at hq
  cases hp with
  | positional n =>
    cases hq with
    | positional n' => exact Numeral.rational_eq_of_text htext
    | scientific n' k' =>
      have hmem : 'e' ∈ n'.text ++ exponentText k' := List.mem_append_right _ List.mem_cons_self
      exact absurd (htext ▸ hmem) n.exponent_notMem_text
  | scientific n k =>
    cases hq with
    | positional n' =>
      have hmem : 'e' ∈ n.text ++ exponentText k := List.mem_append_right _ List.mem_cons_self
      exact absurd (htext ▸ hmem) n'.exponent_notMem_text
    | scientific n' k' =>
      have hpieces := hcut n k
      rw [htext, hcut n' k'] at hpieces
      obtain ⟨hmantissa, hexponent⟩ := Prod.mk.inj (Option.some.inj hpieces)
      have hk : k = k' := exponentText_inj (congrArg ('e' :: ·) hexponent.symm)
      rw [Numeral.rational_eq_of_text hmantissa, hk]

theorem exists_text_eq_cons (h : Denotes text q) : ∃ c cs, text = c :: cs ∧ c.isDigit = true := by
  cases h with
  | positional n => exact n.exists_text_eq_cons
  | scientific n k =>
    obtain ⟨c, cs, htext, hc⟩ := n.exists_text_eq_cons
    exact ⟨c, cs ++ exponentText k, by rw [htext, List.cons_append], hc⟩

end Denotes

namespace Decimal

variable (c : Decimal)

theorem figures_ne_nil : c.figures ≠ [] :=
  Nat.toDigits_ne_nil

theorem all_figures : c.figures.all Char.isDigit = true :=
  all_isDigit_toDigits c.digits

theorem digitsValue_figures : digitsValue c.figures = c.digits :=
  digitsValue_toDigits c.digits

variable {c}

theorem value_of_neg (h : c.exponent < 0) : c.value = c.digits / 10 ^ (-c.exponent).toNat := by
  rw [value, Number.zpow_of_nonpos 10 h.le, mul_one_div]

/-- Zeros behind the figures. -/
theorem exists_positional_whole (h : 0 ≤ c.exponent) : ∃ n : Numeral, n.text = c.positional ∧ n.rational = c.value := by
  let n : Numeral :=
    { whole := c.figures ++ List.replicate c.exponent.toNat '0'
      fraction := []
      whole_ne_nil := by simp [c.figures_ne_nil]
      all_whole := by simp [c.all_figures]
      all_fraction := rfl }
  refine ⟨n, ?_, ?_⟩
  · rw [positional, if_pos h, Numeral.text_of_whole rfl]
  · rw [Numeral.rational, value, Number.zpow_of_nonneg 10 h, List.append_nil, digitsValue_append, digitsValue_figures,
      digitsValue_replicate_zero, List.length_replicate]
    simp [n]

/-- A point between the figures. -/
theorem exists_positional_between (h : c.exponent < 0) (hpoint : 0 < c.point) :
    ∃ n : Numeral, n.text = c.positional ∧ n.rational = c.value := by
  have hlength : c.point = (c.figures.length : Int) + c.exponent := rfl
  have hdrop : c.figures.drop c.point.toNat ≠ [] := by
    rw [Ne, List.drop_eq_nil_iff]
    omega
  let n : Numeral :=
    { whole := c.figures.take c.point.toNat
      fraction := c.figures.drop c.point.toNat
      whole_ne_nil := by
        rw [Ne, List.take_eq_nil_iff, not_or]
        exact ⟨by omega, c.figures_ne_nil⟩
      all_whole := List.all_eq_true.2 fun b hb => List.all_eq_true.1 c.all_figures b (List.mem_of_mem_take hb)
      all_fraction := List.all_eq_true.2 fun b hb => List.all_eq_true.1 c.all_figures b (List.mem_of_mem_drop hb) }
  have hfraction : n.fraction.length = (-c.exponent).toNat := by
    rw [List.length_drop]
    omega
  refine ⟨n, ?_, ?_⟩
  · rw [positional, if_neg h.not_ge, if_pos hpoint, Numeral.text_of_fraction hdrop]
  · rw [Numeral.rational, hfraction, List.take_append_drop, digitsValue_figures, value_of_neg h]

/-- A point and zeros in front of the figures. -/
theorem exists_positional_below (h : c.exponent < 0) (hpoint : c.point ≤ 0) :
    ∃ n : Numeral, n.text = c.positional ∧ n.rational = c.value := by
  have hlength : c.point = (c.figures.length : Int) + c.exponent := rfl
  have hnonempty : List.replicate (-c.point).toNat '0' ++ c.figures ≠ [] := by simp [c.figures_ne_nil]
  let n : Numeral :=
    { whole := ['0']
      fraction := List.replicate (-c.point).toNat '0' ++ c.figures
      whole_ne_nil := List.cons_ne_nil _ _
      all_whole := rfl
      all_fraction := by simp [c.all_figures] }
  have hfraction : n.fraction.length = (-c.exponent).toNat := by
    rw [List.length_append, List.length_replicate]
    omega
  have hdigits : digitsValue (n.whole ++ n.fraction) = c.digits := by
    rw [digitsValue_append, digitsValue_append, digitsValue_replicate_zero, digitsValue_figures]
    simp [n, digitsValue]
  refine ⟨n, ?_, ?_⟩
  · rw [positional, if_neg h.not_ge, if_neg hpoint.not_gt, Numeral.text_of_fraction hnonempty]
    rfl
  · rw [Numeral.rational, hfraction, hdigits, value_of_neg h]

variable (c)

/-- Positional notation is a numeral for the decimal. -/
theorem exists_positional : ∃ n : Numeral, n.text = c.positional ∧ n.rational = c.value := by
  rcases le_or_gt 0 c.exponent with hwhole | hfraction
  · exact exists_positional_whole hwhole
  · rcases lt_or_ge 0 c.point with hpoint | hpoint
    · exact exists_positional_between hfraction hpoint
    · exact exists_positional_below hfraction hpoint

/-- Scientific notation is a numeral with one figure before the point, and an exponent, for the decimal. -/
theorem exists_scientific :
    ∃ (n : Numeral) (k : Int), n.whole.length = 1 ∧ n.text ++ exponentText k = c.scientific
      ∧ n.rational * 10 ^ k = c.value := by
  have hfigures := c.all_figures
  have hpos := List.length_pos_iff.2 c.figures_ne_nil
  let n : Numeral :=
    { whole := c.figures.take 1
      fraction := c.figures.drop 1
      whole_ne_nil := by
        rw [Ne, List.take_eq_nil_iff, not_or]
        exact ⟨by omega, c.figures_ne_nil⟩
      all_whole := List.all_eq_true.2 fun b hb => List.all_eq_true.1 hfigures b (List.mem_of_mem_take hb)
      all_fraction := List.all_eq_true.2 fun b hb => List.all_eq_true.1 hfigures b (List.mem_of_mem_drop hb) }
  refine ⟨n, c.point - 1, ?_, ?_, ?_⟩
  · rw [List.length_take]
    omega
  · rw [scientific]
    by_cases hfraction : c.figures.drop 1 = []
    · rw [Numeral.text_of_whole hfraction, hfraction]
      simp [n, exponentText]
    · obtain ⟨b, bs, hdrop⟩ := List.exists_cons_of_ne_nil hfraction
      have hfraction' : n.fraction = b :: bs := hdrop
      rw [Numeral.text_of_fraction hfraction, hfraction', hdrop]
      simp [n, exponentText]
  · have hexponent : c.point - 1 = ((c.figures.length - 1 : Nat) : Int) + c.exponent := by
      rw [point]
      omega
    have hne : (10 : ℚ) ^ (c.figures.length - 1) ≠ 0 := by positivity
    rw [Numeral.rational, List.take_append_drop, digitsValue_figures, List.length_drop, hexponent,
      zpow_add₀ (by norm_num), zpow_natCast, value]
    field_simp

end Decimal

namespace Number

variable {x y : Float} {p q : ℚ}

/-! ### The written form -/

/-- A text with a minus in front for a negative number. -/
def withSign (q : ℚ) (text : List Char) : List Char :=
  if q < 0 then '-' :: text else text

theorem withSign_of_nonneg (hq : 0 ≤ q) (text : List Char) : withSign q text = text :=
  if_neg (not_lt.2 hq)

theorem withSign_of_neg (hq : q < 0) (text : List Char) : withSign q text = '-' :: text :=
  if_pos hq

/-- A number other than zero is written with the digits of a decimal that rounds to its magnitude. -/
theorem exists_written (hx : value? x = some q) (hq : q ≠ 0) :
    ∃ c : Decimal, rounded c.value = |q| ∧ written x = withSign q
      (if leastPositional ≤ x.abs ∧ x.abs < positionalLimit then c.positional else c.scientific) := by
  obtain ⟨d, hd, rfl⟩ := exists_of_value? hx
  obtain ⟨hsettled, -⟩ := Shape.settled_of_ofFloat hd
  have hmantissa : d.mantissa ≠ 0 := by
    intro hzero
    rw [d.value_eq, hzero] at hq
    simp at hq
  have hpos : 0 < (d.mantissa : ℚ) * 2 ^ d.exponent :=
    mul_pos (by exact_mod_cast Nat.pos_of_ne_zero hmantissa) (two_zpow_pos _)
  have hsign : d.value < 0 ↔ d.negative = true := by
    rw [d.value_eq]
    split_ifs with hnegative
    · exact ⟨fun _ => hnegative, fun _ => neg_lt_zero.2 hpos⟩
    · exact ⟨fun h => absurd h hpos.not_gt, fun h => absurd h hnegative⟩
  refine ⟨d.shortest, ?_, ?_⟩
  · rw [rounded_shortest hsettled (Nat.pos_of_ne_zero hmantissa), d.abs_value]
  · rw [written, hd]
    dsimp only
    rw [if_neg hmantissa, withSign]
    simp only [hsign]

theorem written_of_zero (hx : value? x = some 0) : written x = ['0'] := by
  obtain ⟨d, hd, hvalue⟩ := exists_of_value? hx
  have hmantissa : d.mantissa = 0 := by
    have habs := d.abs_value
    rw [hvalue, abs_zero, eq_comm, mul_eq_zero, or_iff_left (two_zpow_pos _).ne'] at habs
    exact_mod_cast habs
  rw [written, hd]
  dsimp only
  rw [if_pos hmantissa]

/-- Zero, and what is from a millionth up to below `10 ^ 21`, is written as a numeral. -/
theorem exists_written_positional (hx : value? x = some q)
    (h : q = 0 ∨ leastPositional ≤ x.abs ∧ x.abs < positionalLimit) :
    ∃ n : Numeral, rounded n.rational = |q| ∧ written x = withSign q n.text := by
  rcases eq_or_ne q 0 with rfl | hq
  · refine ⟨⟨['0'], [], by decide, rfl, rfl⟩, ?_, ?_⟩
    · simp [Numeral.rational, digitsValue, rounded_zero]
    · rw [withSign_of_nonneg (le_refl _), written_of_zero hx]
      rfl
  · obtain ⟨c, hc, hwritten⟩ := exists_written hx hq
    obtain ⟨n, htext, hvalue⟩ := c.exists_positional
    refine ⟨n, by rw [hvalue, hc], ?_⟩
    rw [hwritten, if_pos (h.resolve_left hq), htext]

/-- All other finite numbers are written with an exponent. -/
theorem exists_written_scientific (hx : value? x = some q) (hq : q ≠ 0)
    (h : ¬ (leastPositional ≤ x.abs ∧ x.abs < positionalLimit)) :
    ∃ (n : Numeral) (k : Int), n.whole.length = 1 ∧ rounded (n.rational * 10 ^ k) = |q|
      ∧ written x = withSign q (n.text ++ exponentText k) := by
  obtain ⟨c, hc, hwritten⟩ := exists_written hx hq
  obtain ⟨n, k, hlength, htext, hvalue⟩ := c.exists_scientific
  refine ⟨n, k, hlength, by rw [hvalue, hc], ?_⟩
  rw [hwritten, if_neg h, htext]

/-- A finite number is written as a text that denotes a number which rounds to its magnitude. -/
theorem exists_denotes (hx : value? x = some q) :
    ∃ text p, Denotes text p ∧ rounded p = |q| ∧ written x = withSign q text := by
  by_cases h : q = 0 ∨ leastPositional ≤ x.abs ∧ x.abs < positionalLimit
  · obtain ⟨n, hn, hwritten⟩ := exists_written_positional hx h
    exact ⟨n.text, n.rational, .positional n, hn, hwritten⟩
  · rw [not_or] at h
    obtain ⟨n, k, -, hn, hwritten⟩ := exists_written_scientific hx h.1 h.2
    exact ⟨_, _, .scientific n k, hn, hwritten⟩

/-! ### Reading back -/

/-- A numeral that is written for a number has the double of its magnitude. -/
theorem value?_of_written {n : Numeral} (hx : value? x = some q) (hn : rounded n.rational = |q|) :
    value? n.value = some |q| := by
  rw [← hn]
  exact n.value?_value (by rw [hn]; exact abs_lt_of_value? hx)

/-- What is written in positional notation is read back as the value of a starting variable. -/
theorem exists_ofText (hx : value? x = some q) (h : q = 0 ∨ leastPositional ≤ x.abs ∧ x.abs < positionalLimit) :
    ∃ y, Datum.ofText (Number.text x) = .number y ∧ (y == x) = true := by
  obtain ⟨n, hn, hwritten⟩ := exists_written_positional hx h
  have hvalue := value?_of_written hx hn
  rw [Number.text, hwritten]
  rcases lt_or_ge q 0 with hneg | hnonneg
  · rw [withSign_of_neg hneg]
    refine ⟨-n.value, Datum.ofText_of_decimal? n.decimal?_minus, (beq_iff (value?_neg hvalue) hx).2 ?_⟩
    rw [abs_of_neg hneg, neg_neg]
  · rw [withSign_of_nonneg hnonneg]
    exact ⟨n.value, Datum.ofText_of_decimal? n.decimal?_text, (beq_iff hvalue hx).2 (abs_of_nonneg hnonneg)⟩

/-- What is written in positional notation without a sign is one token. -/
theorem exists_isSoleToken (hx : value? x = some q)
    (h : q = 0 ∨ leastPositional ≤ x.abs ∧ x.abs < positionalLimit) (hnonneg : 0 ≤ q) :
    ∃ y, IsSoleToken (Number.text x).toList (.number y) ∧ (y == x) = true := by
  obtain ⟨n, hn, hwritten⟩ := exists_written_positional hx h
  rw [Number.text, String.toList_ofList, hwritten, withSign_of_nonneg hnonneg]
  exact ⟨n.value, isSoleToken_number_iff.2 ⟨n, rfl, rfl⟩,
    (beq_iff (value?_of_written hx hn) hx).2 (abs_of_nonneg hnonneg)⟩

/-! ### Different numbers -/

/-- The sign and what is behind it can be told from a text whose digits start at once. -/
theorem withSign_inj {b c : Char} {bs cs : List Char} (hb : b.isDigit = true) (hc : c.isDigit = true)
    (h : withSign p (b :: bs) = withSign q (c :: cs)) : (p < 0 ↔ q < 0) ∧ b :: bs = c :: cs := by
  have hminus : ∀ {c : Char}, c.isDigit = true → '-' ≠ c := by
    rintro c hc rfl
    exact absurd hc (by decide)
  rw [withSign, withSign] at h
  split_ifs at h with hp hq hq
  · exact ⟨iff_of_true hp hq, (List.cons.inj h).2⟩
  · exact absurd (List.cons.inj h).1 (hminus hc)
  · exact absurd (List.cons.inj h).1 (hminus hb).symm
  · exact ⟨iff_of_false hp hq, h⟩

/-- Finite numbers that are written alike are equal. -/
theorem eq_of_written_eq (hx : value? x = some p) (hy : value? y = some q) (h : written x = written y) : p = q := by
  obtain ⟨text, r, hdenotes, hr, hwritten⟩ := exists_denotes hx
  obtain ⟨text', r', hdenotes', hr', hwritten'⟩ := exists_denotes hy
  obtain ⟨b, bs, rfl, hb⟩ := hdenotes.exists_text_eq_cons
  obtain ⟨c, cs, rfl, hc⟩ := hdenotes'.exists_text_eq_cons
  rw [hwritten, hwritten'] at h
  obtain ⟨hsign, htext⟩ := withSign_inj hb hc h
  rw [htext] at hdenotes
  have habs : |p| = |q| := by rw [← hr, ← hr', hdenotes.unique hdenotes']
  rcases lt_or_ge p 0 with hp | hp
  · rwa [abs_of_neg hp, abs_of_neg (hsign.1 hp), neg_inj] at habs
  · rwa [abs_of_nonneg hp, abs_of_nonneg (not_lt.1 (mt hsign.2 (not_lt.2 hp)))] at habs

/-- Finite numbers that are equal are written alike. -/
theorem written_eq_of_value? (hx : value? x = some q) (hy : value? y = some q) : written x = written y := by
  rcases eq_or_ne q 0 with rfl | hq
  · rw [written_of_zero hx, written_of_zero hy]
  · rw [eq_of_value? hx hy hq]

section

open Float.Model (UnpackedFloat)
open Float.Model.UnpackedFloat (Sign)

variable {s s' : Sign}

theorem finite_or_infinite (h : x.isNaN = false) : (∃ q, value? x = some q) ∨ ∃ s, x.toModel.unpack = .infinity s := by
  change x.toModel.unpack.isNaN = false at h
  rw [value?_eq]
  cases hunpack : x.toModel.unpack with
  | notANumber =>
    rw [hunpack] at h
    cases h
  | infinity s => exact .inr ⟨s, rfl⟩
  | zero s => exact .inl ⟨0, rfl⟩
  | finite s m e hm => exact .inl ⟨_, rfl⟩

theorem written_of_infinite (h : x.toModel.unpack = .infinity s) :
    written x = (if isMinus s then "-Infinity" else "Infinity").toList := by
  rw [written, Shape.ofFloat_eq_ofUnpacked, h]
  rfl

theorem written_ne_of_infinite (hx : x.toModel.unpack = .infinity s) (hy : value? y = some q) :
    written x ≠ written y := by
  obtain ⟨text, r, hdenotes, -, hwritten⟩ := exists_denotes hy
  obtain ⟨c, cs, rfl, hc⟩ := hdenotes.exists_text_eq_cons
  have hne : ∀ {d : Char}, ¬ d.isDigit = true → d ≠ c := by
    rintro d hd rfl
    exact hd hc
  rw [written_of_infinite hx, hwritten, withSign]
  cases s <;> simp only [isMinus, if_true, Bool.false_eq_true, if_false] <;> split_ifs <;> intro heq
  · exact hne (by decide) (List.cons.inj (List.cons.inj heq).2).1
  · exact hne (by decide) (List.cons.inj heq).1
  · exact absurd (List.cons.inj heq).1 (by decide)
  · exact hne (by decide) (List.cons.inj heq).1

theorem beq_of_infinite (hx : x.toModel.unpack = .infinity s) (hy : value? y = some q) :
    (x == y) = false ∧ (y == x) = false := by
  change x.toModel.unpack.beq y.toModel.unpack = false ∧ y.toModel.unpack.beq x.toModel.unpack = false
  rw [value?_eq] at hy
  rw [hx]
  generalize y.toModel.unpack = v at hy
  cases v with
  | notANumber => cases hy
  | infinity => cases hy
  | zero s' => cases s <;> exact ⟨rfl, rfl⟩
  | finite s' m e hm => cases s <;> exact ⟨rfl, rfl⟩

/-- Numbers are written alike exactly if they are equal. -/
theorem text_eq_iff (hx : x.isNaN = false) (hy : y.isNaN = false) :
    Number.text x = Number.text y ↔ (x == y) = true := by
  rw [Number.text, Number.text, String.ofList_inj]
  rcases finite_or_infinite hx with ⟨p, hp⟩ | ⟨s, hs⟩ <;> rcases finite_or_infinite hy with ⟨q, hq⟩ | ⟨s', hs'⟩
  · rw [beq_iff hp hq]
    refine ⟨eq_of_written_eq hp hq, ?_⟩
    rintro rfl
    exact written_eq_of_value? hp hq
  · exact iff_of_false (written_ne_of_infinite hs' hp).symm (by simp [(beq_of_infinite hs' hp).2])
  · exact iff_of_false (written_ne_of_infinite hs hq) (by simp [(beq_of_infinite hs hq).1])
  · have hbeq : (x == y) = UnpackedFloat.beq (.infinity s) (.infinity s') := by
      change x.toModel.unpack.beq y.toModel.unpack = _
      rw [hs, hs']
    rw [written_of_infinite hs, written_of_infinite hs', hbeq]
    cases s <;> cases s' <;> decide

end

theorem exists_of_isFinite (h : x.isFinite = true) : ∃ q, value? x = some q := by
  change x.toModel.unpack.isFinite = true at h
  rw [value?_eq]
  cases hunpack : x.toModel.unpack with
  | zero s => exact ⟨0, rfl⟩
  | finite s m e hm => exact ⟨_, rfl⟩
  | notANumber | infinity s =>
    rw [hunpack] at h
    cases h

/-- Zero, and the numbers from a millionth up to below `10 ^ 21`, as doubles. -/
def IsPositional (x : Float) : Prop :=
  (x == 0) = true ∨ 1e-6 ≤ x.abs ∧ x.abs < 1e21

theorem isPositional_iff (hx : value? x = some q) :
    IsPositional x ↔ q = 0 ∨ leastPositional ≤ x.abs ∧ x.abs < positionalLimit := by
  rw [IsPositional, beq_iff hx value?_zero]
  rfl

/-- Written numbers are read back. In positional notation a number is read back as the value of a starting variable
and, if there is no minus, as one token of a program; all other finite numbers are written with an exponent; and two
numbers are written alike exactly if they are equal. -/
theorem text_reads_back :
    (∀ x : Float, x.isFinite = true → IsPositional x →
        (∃ y, Datum.ofText (Number.text x) = .number y ∧ (y == x) = true)
          ∧ (0 ≤ x → ∃ y, IsSoleToken (Number.text x).toList (.number y) ∧ (y == x) = true))
      ∧ (∀ x : Float, x.isFinite = true → ¬ IsPositional x →
        ∃ (q : ℚ) (n : Numeral) (k : Int), value? x = some q ∧ rounded (n.rational * 10 ^ k) = |q|
          ∧ n.whole.length = 1 ∧ (Number.text x).toList = withSign q (n.text ++ exponentText k))
      ∧ ∀ x y : Float, x.isNaN = false → y.isNaN = false → (Number.text x = Number.text y ↔ (x == y) = true) := by
  refine ⟨fun x hfinite hpositional => ?_, fun x hfinite hpositional => ?_, fun x y hx hy => text_eq_iff hx hy⟩
  · obtain ⟨q, hx⟩ := exists_of_isFinite hfinite
    have hnotation := (isPositional_iff hx).1 hpositional
    refine ⟨exists_ofText hx hnotation, fun hnonneg => ?_⟩
    exact exists_isSoleToken hx hnotation ((le_iff value?_zero hx).1 hnonneg)
  · obtain ⟨q, hx⟩ := exists_of_isFinite hfinite
    rw [isPositional_iff hx, not_or] at hpositional
    obtain ⟨n, k, hlength, hvalue, hwritten⟩ := exists_written_scientific hx hpositional.1 hpositional.2
    exact ⟨q, n, k, hx, hvalue, hlength, by rw [Number.text, String.toList_ofList, hwritten]⟩

/-- A tenth is written `0.1` and read back, `10 ^ 23` is written with an exponent, and the two zeros are written alike.
-/
theorem text_reads_back_tenth :
    let tenth := Float.ofBits 0x3FB999999999999A
    let large := Float.ofBits 0x44B52D02C7E14AF6
    (0 ≤ tenth ∧ IsPositional tenth ∧ Number.text tenth = "0.1"
        ∧ (∃ y, Datum.ofText "0.1" = .number y ∧ (y == tenth) = true)
        ∧ ∃ y, IsSoleToken "0.1".toList (.number y) ∧ (y == tenth) = true)
      ∧ (¬ IsPositional large ∧ Number.text large = "1e+23"
        ∧ ∃ (q : ℚ) (n : Numeral) (k : Int), value? large = some q ∧ rounded (n.rational * 10 ^ k) = |q|
          ∧ n.whole.length = 1 ∧ "1e+23".toList = withSign q (n.text ++ exponentText k))
      ∧ Number.text 0 = Number.text (-0) := by
  intro tenth large
  have hnonneg : 0 ≤ tenth := by decide +kernel
  have htenth : IsPositional tenth := .inr (by decide +kernel)
  have hlarge : ¬ IsPositional large := by
    rw [IsPositional]
    decide +kernel
  have htext : Number.text tenth = "0.1" := by decide +kernel
  have htext' : Number.text large = "1e+23" := by decide +kernel
  obtain ⟨hpositional, hscientific, hequal⟩ := text_reads_back
  obtain ⟨hvalue, htoken⟩ := hpositional tenth (by decide +kernel) htenth
  have hexponent := hscientific large (by decide +kernel) hlarge
  rw [htext] at hvalue htoken
  rw [htext'] at hexponent
  exact ⟨⟨hnonneg, htenth, htext, hvalue, htoken hnonneg⟩, ⟨hlarge, htext', hexponent⟩,
    (hequal 0 (-0) (by decide +kernel) (by decide +kernel)).2 (by decide +kernel)⟩

end Number

end PolishPseudocode
