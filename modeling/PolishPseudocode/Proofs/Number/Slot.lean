import PolishPseudocode.Proofs.Number.Conversion

/-! Slots against indices. The origin is rounded to a double, and the difference of the index and this double is
rounded again before it is tested. The slot is the exact difference of index and origin if the origin is a double and
no fraction of the index was lost. For an origin that is not negative none is lost, for then the subtraction brings
the index closer to zero. -/

namespace PolishPseudocode

namespace Number

variable {index : Float} {origin : Int} {s : Nat} {q : ℚ}

/-! ### Natural numbers among dyadic numbers -/

/-- A quotient is a natural number if nothing is left. -/
theorem div_eq_natCast_iff {m unit k : Nat} (hunit : 0 < unit) :
    m % unit = 0 ∧ m / unit = k ↔ (m : ℚ) / unit = k := by
  rw [div_eq_iff (by exact_mod_cast hunit.ne')]
  constructor
  · rintro ⟨hmod, rfl⟩
    exact_mod_cast (Nat.div_mul_cancel (Nat.dvd_of_mod_eq_zero hmod)).symm
  · intro h
    obtain rfl : m = k * unit := by exact_mod_cast h
    exact ⟨Nat.mul_mod_left k unit, Nat.mul_div_cancel k hunit⟩

/-- A dyadic number is a natural one if its value is. -/
theorem natural?_eq_some_iff {d : Dyadic} {k : Nat} : d.natural? = some k ↔ d.value = k := by
  have hunit (j : Nat) : Nat.pow 2 j = 2 ^ j := rfl
  obtain ⟨negative, m, e⟩ := d
  rw [Dyadic.natural?, Dyadic.value]
  dsimp only
  rw [hunit, hunit]
  by_cases hzero : m = 0
  · subst hzero
    rw [if_pos rfl, Option.some_inj]
    simp [eq_comm]
  · rw [if_neg hzero]
    cases negative with
    | true =>
      have hneg : ((-m : Int) : ℚ) * 2 ^ e < 0 := by
        rw [Int.cast_neg, neg_mul, neg_lt_zero]
        exact mul_pos (by exact_mod_cast Nat.pos_of_ne_zero hzero) (two_zpow_pos e)
      simp only [if_true]
      refine ⟨fun h => (by cases h), fun h => ?_⟩
      rw [h] at hneg
      exact absurd hneg (by simp)
    | false =>
      simp only [Bool.false_eq_true, if_false]
      rw [Int.cast_natCast]
      rcases le_or_gt 0 e with he | he
      · have hnone : (-e).toNat = 0 := by omega
        rw [hnone, pow_zero, Nat.mod_one, if_pos rfl, Nat.div_one, Option.some_inj, zpow_of_nonneg 2 he]
        exact_mod_cast Iff.rfl
      · have hnone : e.toNat = 0 := by omega
        have hunit : (2 : ℚ) ^ (-e).toNat = ((2 ^ (-e).toNat : Nat) : ℚ) := by
          push_cast
          rfl
        rw [hnone, pow_zero, mul_one, zpow_of_nonpos 2 he.le, mul_one_div, hunit, Option.ite_none_right_eq_some,
          Option.some_inj]
        exact div_eq_natCast_iff (by positivity)

/-- The slot is the difference of the index and the rounded origin, rounded, if this is a natural number in range. -/
theorem slot?_eq_some_iff (horigin : |origin| < 2 ^ 64) :
    slot? index origin = some s
      ↔ ∃ q, value? index = some q ∧ rounded (q - rounded origin) = s ∧ s ≤ maxSafe := by
  have hof := value?_ofInt horigin
  constructor
  · intro h
    rw [slot?] at h
    split at h
    · rename_i d hd
      obtain ⟨hnatural, hle⟩ := Option.filter_eq_some_iff.1 h
      have hvalue : value? (index - Float.ofInt origin) = some (s : ℚ) := by
        rw [value?_of_shape hd, natural?_eq_some_iff.1 hnatural]
      obtain ⟨p, p', hp, hp', hdifference⟩ := exists_of_value?_sub hvalue
      obtain rfl := Option.some.inj (hof.symm.trans hp')
      exact ⟨p, hp, hdifference, of_decide_eq_true hle⟩
    · cases h
  · rintro ⟨q, hq, hdifference, hle⟩
    have hlt : |rounded (q - rounded origin)| < 2 ^ (1024 : Int) := by
      have hsmall : s < 2 ^ 53 := Nat.lt_of_le_of_lt hle (by decide)
      rw [hdifference, Nat.abs_cast]
      calc (s : ℚ) < 2 ^ (53 : Int) := by exact_mod_cast hsmall
        _ < 2 ^ (1024 : Int) := zpow_lt_zpow_right₀ (by norm_num) (by norm_num)
    obtain ⟨d, hd, hvalue⟩ := exists_of_value? (value?_sub hq hof hlt)
    rw [slot?, hd]
    dsimp only
    rw [natural?_eq_some_iff.2 (hvalue.trans hdifference), Option.filter_some, if_pos (decide_eq_true hle)]

/-! ### Exactness -/

/-- An integer that rounds to a small one is that one. -/
theorem eq_of_rounded_eq {k : Int} (hs : s ≤ maxSafe) (h : rounded k = s) : k = s := by
  have hsmall : |(s : Int)| < 2 ^ 53 := by
    have hlt : s < 2 ^ 53 := Nat.lt_of_le_of_lt hs (by decide)
    rw [Nat.abs_cast]
    exact_mod_cast hlt
  rcases lt_trichotomy k s with hlt | heq | hgt
  · have hround := rounded_intCast_lt hsmall hlt
    rw [h] at hround
    exact absurd hround (by simp)
  · exact heq
  · have hround := lt_rounded_intCast hsmall hgt
    rw [h] at hround
    exact absurd hround (by simp)

/-- An integer is rounded to an integer. -/
theorem exists_rounded_intCast (n : Int) : ∃ m : Int, rounded n = m := by
  rcases le_or_gt |n| (2 ^ 53) with hsmall | hlarge
  · exact ⟨n, rounded_intCast hsmall⟩
  · have hle : ((2 : Nat) : ℚ) ^ (53 : Int) ≤ |(n : ℚ)| := by exact_mod_cast hlarge.le
    have hlog : 53 ≤ Int.log 2 |(n : ℚ)| :=
      (Int.zpow_le_iff_le_log (by norm_num) ((two_zpow_pos 53).trans_le hle)).1 hle
    have hplace : 0 ≤ lastPlace n := by
      rw [lastPlace]
      omega
    refine ⟨halfEven (n / 2 ^ lastPlace n) * (2 ^ (lastPlace n).toNat : Nat), ?_⟩
    rw [rounded, zpow_of_nonneg 2 hplace]
    push_cast
    rfl

/-- A double is a whole number of units of a power of two. -/
theorem exists_units (hq : value? index = some q) :
    ∃ (n : Int) (e : Int), |n| < 2 ^ 53 ∧ -1074 ≤ e ∧ q = n * 2 ^ e := by
  obtain ⟨d, hd, rfl⟩ := exists_of_value? hq
  obtain ⟨hsettled, -⟩ := Shape.settled_of_ofFloat hd
  refine ⟨if d.negative then -d.mantissa else d.mantissa, d.exponent, ?_, hsettled.le, rfl⟩
  have hlt : (d.mantissa : Int) < 2 ^ 53 := by exact_mod_cast hsettled.lt
  cases d.negative <;> simpa using hlt

/-- The index of a slot is a whole number if the origin is not negative. Its difference from the rounded origin has
no more digits than the index itself, unless the index is smaller; and then the difference stays negative. -/
theorem exists_int_of_slot? (horigin : 0 ≤ origin) (hq : value? index = some q)
    (h : rounded (q - rounded origin) = s) : ∃ n : Int, q = n := by
  obtain ⟨o, ho⟩ := exists_rounded_intCast origin
  have hnonneg : 0 ≤ o := by
    have hrounded := rounded_nonneg (q := (origin : ℚ)) (by exact_mod_cast horigin)
    rw [ho] at hrounded
    exact_mod_cast hrounded
  obtain ⟨n, e, hn, he, rfl⟩ := exists_units hq
  rw [ho] at h
  rcases le_or_gt 0 e with hwhole | hfraction
  · refine ⟨n * (2 ^ e.toNat : Nat), ?_⟩
    rw [zpow_of_nonneg 2 hwhole]
    push_cast
    rfl
  · -- The difference counted in the same units as the index.
    let j := n - o * 2 ^ (-e).toNat
    have hj : (n * 2 ^ e - o : ℚ) = j * 2 ^ e := by
      have hpos : ((2 : ℚ) ^ (-e).toNat) ≠ 0 := by positivity
      rw [zpow_of_nonpos 2 hfraction.le]
      push_cast [j]
      field_simp
    rw [hj] at h
    rcases le_or_gt 0 j with hj' | hj'
    · have hle : j ≤ n := by
        have hshift : 0 ≤ o * 2 ^ (-e).toNat := by positivity
        omega
      have hexact : rounded (j * 2 ^ e) = j * 2 ^ e := rounded_mul_two_zpow (by rw [abs_lt] at hn ⊢; omega) he
      refine ⟨o + s, ?_⟩
      push_cast
      linarith
    · have hunit : rounded ((-1 : Int) * 2 ^ e) = (-1 : Int) * 2 ^ e := rounded_mul_two_zpow (by norm_num) he
      have hle : rounded (j * 2 ^ e) ≤ rounded ((-1 : Int) * 2 ^ e) :=
        rounded_mono (mul_le_mul_of_nonneg_right (by exact_mod_cast Int.le_sub_one_of_lt hj') (two_zpow_pos e).le)
      have hpos := two_zpow_pos e
      have hs : (0 : ℚ) ≤ s := Nat.cast_nonneg s
      rw [hunit, h] at hle
      push_cast at hle
      linarith

/-- What a slot tells about its index: the difference of the two is the rounded origin, rounded. It is the origin
exactly if this is a double and, should it be negative, the index has no fraction. -/
theorem slot_exact_iff (hleast : -2 ^ 63 ≤ origin) (hlimit : origin < 2 ^ 63) :
    (slot? index origin = some s
        ↔ ∃ q, value? index = some q ∧ rounded (q - rounded origin) = s ∧ s ≤ maxSafe)
      ∧ (slot? index origin = some s →
        (value? index = some ((origin + s : Int) : ℚ)
          ↔ rounded origin = origin ∧ (0 ≤ origin ∨ ∃ n : Int, value? index = some (n : ℚ)))) := by
  have horigin : |origin| < 2 ^ 64 := by
    rw [abs_lt]
    omega
  refine ⟨slot?_eq_some_iff horigin, fun h => ?_⟩
  obtain ⟨q, hq, hdifference, hle⟩ := (slot?_eq_some_iff horigin).1 h
  obtain ⟨o, ho⟩ := exists_rounded_intCast origin
  have hwhole : ∀ n : Int, q = n → q = o + s := by
    rintro n rfl
    rw [ho, ← Int.cast_sub] at hdifference
    have hexact := eq_of_rounded_eq hle hdifference
    rw [← sub_eq_iff_eq_add']
    exact_mod_cast hexact
  rw [hq, ho]
  constructor
  · intro hvalue
    have hvalue' := Option.some.inj hvalue
    have hsum := hwhole _ hvalue'
    rw [hvalue'] at hsum
    push_cast at hsum
    exact ⟨by linarith, .inr ⟨origin + s, hvalue⟩⟩
  · rintro ⟨hexact, hcase⟩
    have hinteger : ∃ n : Int, q = n := by
      rcases hcase with hnonneg | ⟨n, hn⟩
      · exact exists_int_of_slot? hnonneg hq hdifference
      · exact ⟨n, Option.some.inj hn⟩
    obtain ⟨n, hn⟩ := hinteger
    rw [hwhole n hn, hexact]
    push_cast
    rfl

/-- With the origin one, seven is the index of the slot six. -/
theorem slot_exact_iff_seven :
    let seven := Float.ofBits 0x401C000000000000
    slot? seven 1 = some 6 ∧ value? seven = some ((1 + (6 : Nat) : Int) : ℚ) := by
  intro seven
  have hslot : slot? seven 1 = some 6 := by decide +kernel
  have hone : rounded ((1 : Int) : ℚ) = ((1 : Int) : ℚ) := rounded_intCast (by norm_num)
  exact ⟨hslot, ((slot_exact_iff (by norm_num) (by norm_num)).2 hslot).2 ⟨hone, .inl (by norm_num)⟩⟩

/-- A slot does not tell its index: with the origin minus one the fraction `2 ^ -60` has the slot of zero, and with the
origin `2 ^ 53 + 1` the index `2 ^ 53`, which is below it, has the first slot. -/
theorem not_slot_exact :
    let fraction := Float.ofBits 0x3C30000000000000
    let below := Float.ofBits 0x4340000000000000
    value? fraction = some (2 ^ (-60 : Int)) ∧ value? below = some (2 ^ 53)
      ∧ ¬ (slot? fraction (-1) = some 1 → value? fraction = some ((-1 + (1 : Nat) : Int) : ℚ))
      ∧ ¬ (slot? below (2 ^ 53 + 1) = some 0 → value? below = some ((2 ^ 53 + 1 + (0 : Nat) : Int) : ℚ)) := by
  intro fraction below
  have hfraction : value? fraction = some (2 ^ (-60 : Int)) := by
    have hshape : Shape.ofFloat fraction = .finite ⟨false, 2 ^ 52, -112⟩ := by decide +kernel
    rw [value?_of_shape hshape]
    norm_num [Dyadic.value]
  have hbelow : value? below = some (2 ^ 53) := by
    have hshape : Shape.ofFloat below = .finite ⟨false, 2 ^ 52, 1⟩ := by decide +kernel
    rw [value?_of_shape hshape]
    norm_num [Dyadic.value]
  refine ⟨hfraction, hbelow, fun h => ?_, fun h => ?_⟩
  · rw [hfraction] at h
    have hvalue := Option.some.inj (h (by decide +kernel))
    norm_num at hvalue
  · rw [hbelow] at h
    have hvalue := Option.some.inj (h (by decide +kernel))
    norm_num at hvalue

end Number

end PolishPseudocode
