import PolishPseudocode.Proofs.Number.Conversion

/-! The nearest double. The bits that are computed for a quotient are those of the quotient, rounded: the place in the
exponent field is the last place, and the mantissa, added to it, carries over into the exponent where it has a digit
too many. -/

namespace PolishPseudocode

namespace Number

variable {num den : Nat}

/-! ### Logarithms -/

/-- The logarithm of a quotient is found by the lengths of its parts and one comparison. -/
theorem floorLog2_eq (hnum : 0 < num) (hden : 0 < den) : floorLog2 num den = Int.log 2 ((num : ℚ) / den) := by
  have hnum' : (0 : ℚ) < num := by exact_mod_cast hnum
  have hden' : (0 : ℚ) < den := by exact_mod_cast hden
  have hpos : (0 : ℚ) < num / den := div_pos hnum' hden'
  have hpow (n : Nat) (hn : 0 < n) : (2 : ℚ) ^ (n.log2 : Int) ≤ n ∧ (n : ℚ) < 2 ^ ((n.log2 : Int) + 1) := by
    refine ⟨by exact_mod_cast Nat.log2_self_le hn.ne', ?_⟩
    exact_mod_cast Nat.lt_log2_self (n := n)
  obtain ⟨hnumLow, hnumHigh⟩ := hpow num hnum
  obtain ⟨hdenLow, hdenHigh⟩ := hpow den hden
  have hlow : ((2 : Nat) : ℚ) ^ ((num.log2 : Int) - den.log2 - 1) ≤ num / den := by
    rw [le_div_iff₀ hden', Nat.cast_ofNat]
    calc (2 : ℚ) ^ ((num.log2 : Int) - den.log2 - 1) * den
        ≤ 2 ^ ((num.log2 : Int) - den.log2 - 1) * 2 ^ ((den.log2 : Int) + 1) :=
          mul_le_mul_of_nonneg_left hdenHigh.le (two_zpow_pos _).le
      _ = 2 ^ (num.log2 : Int) := by
          rw [← zpow_add₀ (by norm_num)]
          congr 1
          omega
      _ ≤ num := hnumLow
  have hhigh : (num : ℚ) / den < ((2 : Nat) : ℚ) ^ ((num.log2 : Int) - den.log2 + 1) := by
    rw [div_lt_iff₀ hden', Nat.cast_ofNat]
    calc (num : ℚ) < 2 ^ ((num.log2 : Int) + 1) := hnumHigh
      _ = 2 ^ ((num.log2 : Int) - den.log2 + 1) * 2 ^ (den.log2 : Int) := by
          rw [← zpow_add₀ (by norm_num)]
          congr 1
          omega
      _ ≤ 2 ^ ((num.log2 : Int) - den.log2 + 1) * den := mul_le_mul_of_nonneg_left hdenLow (two_zpow_pos _).le
  have hcompare (e : Int) : den * Nat.pow 2 e.toNat ≤ num * Nat.pow 2 (-e).toNat ↔ ((2 : Nat) : ℚ) ^ e ≤ num / den := by
    rw [zpow_eq_div (by norm_num), div_le_div_iff₀ (by positivity) hden', mul_comm den]
    exact_mod_cast Iff.rfl
  have hlog := (Int.zpow_le_iff_le_log (by norm_num) hpos).1 hlow
  have hlog' := (Int.lt_zpow_iff_log_lt (by norm_num) hpos).1 hhigh
  rw [floorLog2]
  split_ifs with h
  · have hge := (Int.zpow_le_iff_le_log (by norm_num) hpos).1 ((hcompare _).1 h)
    omega
  · have hlt := (Int.lt_zpow_iff_log_lt (by norm_num) hpos).1 (not_le.1 fun hle => h ((hcompare _).2 hle))
    omega

/-! ### Bits -/

/-- The number that the bits of a finite double without a sign stand for. -/
def codeValue (code : Nat) : ℚ :=
  if code / 2 ^ 52 = 0 then (code % 2 ^ 52 : Nat) * 2 ^ (-1074 : Int)
  else (2 ^ 52 + code % 2 ^ 52 : Nat) * 2 ^ ((code / 2 ^ 52 : Nat) - 1075 : Int)

/-- A mantissa added to its place. -/
theorem codeValue_add {place m : Nat} (hm : m ≤ 2 ^ 53) (hfull : place ≠ 0 → 2 ^ 52 ≤ m) :
    codeValue (place * 2 ^ 52 + m) = m * 2 ^ ((place : Int) - 1074) := by
  rw [codeValue]
  rcases lt_or_ge m (2 ^ 52) with hsmall | hlarge
  · -- Without a full mantissa nothing reaches the exponent field.
    obtain rfl : place = 0 := by
      by_contra hne
      exact absurd (hfull hne) (by omega)
    rw [if_pos (by omega), Nat.zero_mul, Nat.zero_add, Nat.mod_eq_of_lt hsmall]
    rfl
  · rcases hm.eq_or_lt with rfl | hlt
    · -- The digit too many adds two to the exponent field and leaves no fraction.
      have hfield : (place * 2 ^ 52 + 2 ^ 53) / 2 ^ 52 = place + 2 := by omega
      have hfraction : (place * 2 ^ 52 + 2 ^ 53) % 2 ^ 52 = 0 := by omega
      have hexponent : ((place + 2 : Nat) : Int) - 1075 = (place : Int) - 1074 + 1 := by omega
      rw [hfield, hfraction, if_neg (by omega), hexponent, zpow_add_one₀ (by norm_num)]
      push_cast
      ring
    · have hfield : (place * 2 ^ 52 + m) / 2 ^ 52 = place + 1 := by omega
      have hfraction : 2 ^ 52 + (place * 2 ^ 52 + m) % 2 ^ 52 = m := by omega
      have hexponent : ((place + 1 : Nat) : Int) - 1075 = (place : Int) - 1074 := by omega
      rw [hfield, hfraction, if_neg (by omega), hexponent]

/-- The bits of a number below `2 ^ 1024` are below those of infinity. -/
theorem lt_infinityCode {place m : Nat} (hm : m ≤ 2 ^ 53) (hfull : place ≠ 0 → 2 ^ 52 ≤ m)
    (hlt : (m : ℚ) * 2 ^ ((place : Int) - 1074) < 2 ^ (1024 : Int)) : place * 2 ^ 52 + m < infinityCode := by
  by_contra hcode
  have hlarge : 2047 * 2 ^ 52 ≤ place * 2 ^ 52 + m := not_lt.1 hcode
  have hpow (k : Nat) (e : Int) (hsum : k + e = 1024) : (2 : ℚ) ^ (1024 : Int) = (2 ^ k : Nat) * 2 ^ e := by
    rw [← hsum, zpow_add₀ (by norm_num), zpow_natCast]
    push_cast
    rfl
  apply absurd hlt
  rw [not_lt]
  rcases lt_or_ge place 2046 with hplace | hplace
  · obtain rfl : place = 2045 := by omega
    obtain rfl : m = 2 ^ 53 := by omega
    exact (hpow 53 971 (by norm_num)).le
  · rw [hpow 52 972 (by norm_num)]
    exact mul_le_mul (by exact_mod_cast hfull (by omega)) (zpow_le_zpow_right₀ (by norm_num) (by omega))
      (two_zpow_pos _).le (Nat.cast_nonneg m)

/-- The bits of a finite double are read by their fields. -/
theorem value?_ofBits (negative : Bool) {code : Nat} (h : code < infinityCode) :
    value? (Float.ofBits (UInt64.ofNat (code + if negative then Nat.pow 2 63 else 0)))
      = some (if negative then -codeValue code else codeValue code) := by
  have hpow (k : Nat) : Nat.pow 2 k = 2 ^ k := rfl
  have hcode : code < 2047 * 2 ^ 52 := h
  rw [hpow]
  generalize hbits : code + (if negative then 2 ^ 63 else 0) = bits
  have hlt : bits < 2 ^ 64 := by cases negative <;> simp at hbits <;> omega
  have hfield : bits / 2 ^ 52 % 2 ^ 11 = code / 2 ^ 52 := by cases negative <;> simp at hbits <;> omega
  have hfraction : bits % 2 ^ 52 = code % 2 ^ 52 := by cases negative <;> simp at hbits <;> omega
  have hsign : decide (2 ^ 63 ≤ bits) = negative := by cases negative <;> simp at hbits ⊢ <;> omega
  have htoNat : (UInt64.ofNat bits).toNat = bits := Nat.mod_eq_of_lt hlt
  have htoBits : (Float.ofBits (UInt64.ofNat bits)).toBits = UInt64.ofNat bits :=
    toBits_ofBits (by rw [htoNat, hfield]; omega)
  rw [value?, Shape.ofFloat, htoBits, htoNat]
  simp only [hpow]
  rw [hfield, hfraction, hsign, codeValue, if_neg (by omega)]
  by_cases hzero : code / 2 ^ 52 = 0
  · rw [if_pos hzero, if_pos hzero]
    exact congrArg some (Dyadic.value_eq _)
  · rw [if_neg hzero, if_neg hzero]
    exact congrArg some (Dyadic.value_eq _)

/-! ### Rounding -/

/-- The bits that are computed for a quotient are those of the quotient, rounded. -/
theorem codeValue_nearestCode (num : Nat) (hden : 0 < den) (hlt : rounded ((num : ℚ) / den) < 2 ^ (1024 : Int)) :
    nearestCode num den < infinityCode ∧ codeValue (nearestCode num den) = rounded ((num : ℚ) / den) := by
  rw [nearestCode]
  by_cases hzero : num = 0
  · subst hzero
    rw [if_pos rfl]
    refine ⟨by decide, ?_⟩
    simp [codeValue, rounded_zero]
  have hpow (k : Nat) : Nat.pow 2 k = 2 ^ k := rfl
  rw [if_neg hzero]
  simp only [hpow]
  have hq : (0 : ℚ) < num / den :=
    div_pos (by exact_mod_cast Nat.pos_of_ne_zero hzero) (by exact_mod_cast hden)
  have hplace : ((floorLog2 num den + 1022).toNat : Int) - 1074 = lastPlace (num / den) := by
    rw [lastPlace, abs_of_pos hq, floorLog2_eq (Nat.pos_of_ne_zero hzero) hden]
    omega
  generalize (floorLog2 num den + 1022).toNat = place at hplace ⊢
  have hquotient : (num / den : ℚ) / 2 ^ lastPlace (num / den)
      = ((num * 2 ^ (1074 - place) : Nat) : ℚ) / ((den * 2 ^ (place - 1074) : Nat) : ℚ) := by
    have hunit := zpow_eq_div (two_ne_zero : (2 : ℚ) ≠ 0) (lastPlace ((num : ℚ) / den))
    have hup : (lastPlace ((num : ℚ) / den)).toNat = place - 1074 := by omega
    have hdown : (-lastPlace ((num : ℚ) / den)).toNat = 1074 - place := by omega
    rw [hup, hdown] at hunit
    rw [hunit, div_div_div_eq]
    push_cast
    rfl
  have hnonneg := halfEven_nonneg (div_pos hq (two_zpow_pos (lastPlace (num / den)))).le
  have hle := halfEven_le hq
  have hge := le_halfEven hq
  have hrounded : rounded ((num : ℚ) / den)
      = halfEven ((num : ℚ) / den / 2 ^ lastPlace ((num : ℚ) / den)) * 2 ^ lastPlace ((num : ℚ) / den) := rfl
  rw [hrounded] at hlt ⊢
  rw [hquotient, halfEven_div _ _ (Nat.mul_pos hden (by positivity))] at hle hge hlt ⊢
  rw [← hplace] at hge hlt ⊢
  generalize roundHalfEven (num * 2 ^ (1074 - place)) (den * 2 ^ (place - 1074)) = m at hle hge hlt ⊢
  have hm : m ≤ 2 ^ 53 := by exact_mod_cast hle
  have hfull : place ≠ 0 → 2 ^ 52 ≤ m := fun hne => by exact_mod_cast hge (by omega)
  have hcode : place * 2 ^ 52 + m < infinityCode := lt_infinityCode hm hfull (by exact_mod_cast hlt)
  rw [Nat.min_eq_left hcode.le]
  exact ⟨hcode, codeValue_add hm hfull⟩

/-- The nearest double stands for the quotient, rounded, if this is in range. -/
theorem value?_nearest (negative : Bool) (num : Nat) (hden : 0 < den)
    (hlt : rounded ((num : ℚ) / den) < 2 ^ (1024 : Int)) :
    value? (nearest negative num den)
      = some (if negative then -rounded ((num : ℚ) / den) else rounded ((num : ℚ) / den)) := by
  obtain ⟨hcode, hvalue⟩ := codeValue_nearestCode num hden hlt
  rw [nearest, value?_ofBits negative hcode, hvalue]

end Number

end PolishPseudocode
