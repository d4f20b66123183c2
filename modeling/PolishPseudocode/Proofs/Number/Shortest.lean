import PolishPseudocode.Number.Shortest
import PolishPseudocode.Proofs.Number.Nearest

/-! The digits of a double round to it. The numbers that are admitted for a double lie between the halfway points to its
neighbours, where rounding leads back to it. The digits that are found are admitted, or they are those of the double
itself. -/

namespace PolishPseudocode

def Decimal.value (c : Decimal) : ℚ :=
  c.digits * 10 ^ c.exponent

namespace Number

/-! ### Comparisons of binary and decimal numbers -/

section

variable (a b : Nat) (j k : Int)

theorem scale_pos : (0 : ℚ) < ((2 ^ (-j).toNat * 10 ^ (-k).toNat : Nat) : ℚ) := by
  positivity

theorem binary_mul_scale :
    (a : ℚ) * 2 ^ j * ((2 ^ (-j).toNat * 10 ^ (-k).toNat : Nat) : ℚ)
      = ((a * (2 ^ j.toNat * 10 ^ (-k).toNat) : Nat) : ℚ) := by
  rw [zpow_eq_div (by norm_num) j]
  push_cast
  field_simp

theorem decimal_mul_scale :
    (b : ℚ) * 10 ^ k * ((2 ^ (-j).toNat * 10 ^ (-k).toNat : Nat) : ℚ)
      = ((b * (10 ^ k.toNat * 2 ^ (-j).toNat) : Nat) : ℚ) := by
  rw [zpow_eq_div (by norm_num) k]
  push_cast
  field_simp

theorem binary_le_decimal_iff :
    a * (2 ^ j.toNat * 10 ^ (-k).toNat) ≤ b * (10 ^ k.toNat * 2 ^ (-j).toNat) ↔ (a : ℚ) * 2 ^ j ≤ b * 10 ^ k := by
  rw [← mul_le_mul_iff_of_pos_right (scale_pos j k), binary_mul_scale, decimal_mul_scale, Nat.cast_le]

theorem decimal_le_binary_iff :
    b * (10 ^ k.toNat * 2 ^ (-j).toNat) ≤ a * (2 ^ j.toNat * 10 ^ (-k).toNat) ↔ (b : ℚ) * 10 ^ k ≤ a * 2 ^ j := by
  rw [← mul_le_mul_iff_of_pos_right (scale_pos j k), binary_mul_scale, decimal_mul_scale, Nat.cast_le]

end

/-! ### Admitted decimals -/

variable {d : Dyadic} {c : Decimal}

/-- How far the interval of a magnitude reaches down, in quarters of its last place. -/
def down (d : Dyadic) : Nat :=
  if d.mantissa = 2 ^ 52 ∧ -1074 < d.exponent then 1 else 2

theorem down_le (d : Dyadic) : (down d : ℚ) ≤ 2 := by
  rw [down]
  split_ifs <;> norm_num

/-- The decimals that are admitted for a magnitude lie between the halfway points to its neighbours; these count if its
mantissa is even. -/
theorem admits_iff : d.admits c = true
    ↔ if d.mantissa % 2 = 0 then
        ((4 * d.mantissa - down d : Nat) : ℚ) * 2 ^ (d.exponent - 2) ≤ c.value
          ∧ c.value ≤ ((4 * d.mantissa + 2 : Nat) : ℚ) * 2 ^ (d.exponent - 2)
      else
        ((4 * d.mantissa - down d : Nat) : ℚ) * 2 ^ (d.exponent - 2) < c.value
          ∧ c.value < ((4 * d.mantissa + 2 : Nat) : ℚ) * 2 ^ (d.exponent - 2) := by
  have hpow (b k : Nat) : Nat.pow b k = b ^ k := rfl
  have hneg : 2 - d.exponent = -(d.exponent - 2) := by omega
  rw [Dyadic.admits, Decimal.value]
  simp only [hpow, hneg]
  rw [← down]
  split_ifs
  · rw [Bool.and_eq_true, decide_eq_true_iff, decide_eq_true_iff, binary_le_decimal_iff, decimal_le_binary_iff]
  · rw [Bool.and_eq_true, decide_eq_true_iff, decide_eq_true_iff, ← not_le, ← not_le, binary_le_decimal_iff,
      decimal_le_binary_iff, not_le, not_le]

/-- An admitted decimal in units of the last place. -/
theorem units_of_admits (hpos : 0 < d.mantissa) (h : d.admits c = true) :
    ((d.mantissa : ℚ) - down d / 4 ≤ c.value / 2 ^ d.exponent ∧ c.value / 2 ^ d.exponent ≤ d.mantissa + 1 / 2)
      ∧ (d.mantissa % 2 ≠ 0 →
        (d.mantissa : ℚ) - down d / 4 < c.value / 2 ^ d.exponent ∧ c.value / 2 ^ d.exponent < d.mantissa + 1 / 2) := by
  have hdown : down d ≤ 2 := by exact_mod_cast down_le d
  have hquarter : (2 : ℚ) ^ (d.exponent - 2) = 2 ^ d.exponent / 4 := by
    rw [zpow_sub₀ (by norm_num)]
    norm_num
  have hlow : ((4 * d.mantissa - down d : Nat) : ℚ) * 2 ^ (d.exponent - 2)
      = ((d.mantissa : ℚ) - down d / 4) * 2 ^ d.exponent := by
    rw [hquarter, Nat.cast_sub (by omega)]
    push_cast
    ring
  have hhigh : ((4 * d.mantissa + 2 : Nat) : ℚ) * 2 ^ (d.exponent - 2)
      = ((d.mantissa : ℚ) + 1 / 2) * 2 ^ d.exponent := by
    rw [hquarter]
    push_cast
    ring
  have hunit := two_zpow_pos d.exponent
  rw [admits_iff, hlow, hhigh] at h
  rw [le_div_iff₀ hunit, div_le_iff₀ hunit, lt_div_iff₀ hunit, div_lt_iff₀ hunit]
  split_ifs at h with heven
  · exact ⟨h, fun hodd => absurd heven hodd⟩
  · exact ⟨⟨h.1.le, h.2.le⟩, fun _ => h⟩

/-- Units that are within the interval of a mantissa round to it. -/
theorem halfEven_of_admits (hpos : 0 < d.mantissa) (h : d.admits c = true) :
    halfEven (c.value / 2 ^ d.exponent) = d.mantissa := by
  have hdown := down_le d
  obtain ⟨⟨hlow, hhigh⟩, hodd⟩ := units_of_admits hpos h
  rcases eq_or_ne (d.mantissa % 2) 0 with heven | hne
  · refine halfEven_eq_of_le (by omega) ?_ ?_ <;> push_cast <;> linarith
  · obtain ⟨hlow, hhigh⟩ := hodd hne
    refine halfEven_eq_of_lt ?_ ?_ <;> push_cast <;> linarith

/-- Just below a power of two the last place is half as large, and numbers within a quarter round up to the power. -/
theorem rounded_below_power {q : ℚ} {e : Int} (he : -1074 < e) (hlow : 2 ^ (52 : Int) - 1 / 4 ≤ q / 2 ^ e)
    (hhigh : q / 2 ^ e < 2 ^ (52 : Int)) : rounded q = 2 ^ (52 : Int) * 2 ^ e := by
  have hunit := two_zpow_pos e
  have hunit' := two_zpow_pos (e - 1)
  have hhalf : (2 : ℚ) ^ e = 2 * 2 ^ (e - 1) := by
    rw [zpow_sub_one₀ (by norm_num)]
    ring
  have hvalue : q = q / 2 ^ e * 2 * 2 ^ (e - 1) := by
    rw [mul_assoc, ← hhalf, div_mul_cancel₀ _ hunit.ne']
  generalize q / 2 ^ e = t at hlow hhigh hvalue
  norm_num at hlow hhigh
  have hplace : lastPlace q = e - 1 := by
    refine lastPlace_eq ?_ (by omega) ?_ fun _ => ?_ <;> rw [hvalue]
    · exact mul_pos (by linarith) hunit'
    · refine mul_lt_mul_of_pos_right ?_ hunit'
      norm_num
      linarith
    · refine mul_le_mul_of_nonneg_right ?_ hunit'.le
      norm_num
      linarith
  have hround : halfEven (t * 2) = 2 ^ 53 := by
    refine halfEven_eq_of_le (by norm_num) ?_ ?_ <;> push_cast <;> norm_num <;> linarith
  rw [rounded, hplace, hvalue, mul_div_cancel_right₀ _ hunit'.ne', hround, hhalf]
  push_cast
  ring

/-- An admitted decimal rounds to the magnitude. -/
theorem rounded_of_admits (hd : Settled d.mantissa d.exponent) (hpos : 0 < d.mantissa) (h : d.admits c = true) :
    rounded c.value = d.mantissa * 2 ^ d.exponent := by
  obtain ⟨⟨hlow, hhigh⟩, -⟩ := units_of_admits hpos h
  have hround := halfEven_of_admits hpos h
  have hdown := down_le d
  have hunit := two_zpow_pos d.exponent
  by_cases hbinade : d.exponent ≠ -1074 → 2 ^ (52 : Int) ≤ c.value / 2 ^ d.exponent
  · have hm : (1 : ℚ) ≤ d.mantissa := by exact_mod_cast hpos
    have hlimit : (d.mantissa : ℚ) + 1 ≤ 2 ^ (53 : Int) := by exact_mod_cast hd.lt
    have hplace : lastPlace c.value = d.exponent := by
      refine lastPlace_eq ?_ hd.le ((div_lt_iff₀ hunit).1 (by linarith)) fun hne => (le_div_iff₀ hunit).1 (hbinade hne)
      have hquotient : 0 < c.value / 2 ^ d.exponent := by linarith
      exact (div_pos_iff_of_pos_right hunit).1 hquotient
    rw [rounded, hplace, hround, Int.cast_natCast]
  · -- Then the mantissa is that of a power of two, so the interval reaches down by a quarter only.
    rw [Classical.not_imp, not_le] at hbinade
    obtain ⟨hne, hbelow⟩ := hbinade
    have hle := hd.le
    have hmantissa : d.mantissa = 2 ^ 52 := by
      have hlt : (d.mantissa : ℚ) < ((2 ^ 52 + 1 : Nat) : ℚ) := by
        push_cast
        norm_num at hbelow
        linarith
      have hlt' : d.mantissa < 2 ^ 52 + 1 := by exact_mod_cast hlt
      have hge := hd.full hne
      omega
    have hdown' : down d = 1 := if_pos ⟨hmantissa, by omega⟩
    rw [hdown', hmantissa] at hlow
    push_cast at hlow
    rw [rounded_below_power (by omega) hlow hbelow, hmantissa]
    push_cast
    rfl

/-! ### The shortest decimal -/

theorem admits_of_gridPoint? {exponent : Int} (h : d.gridPoint? exponent = some c) : d.admits c = true := by
  rw [Dyadic.gridPoint?] at h
  split at h
  · rename_i hbelow habove
    split_ifs at h
    · exact Option.some.inj h ▸ hbelow
    · exact Option.some.inj h ▸ habove
  · rename_i hbelow habove
    exact Option.some.inj h ▸ hbelow
  · rename_i hbelow habove
    exact Option.some.inj h ▸ habove
  · cases h

theorem admits_shortestFrom (d : Dyadic) (tries : Nat) (exponent : Int) :
    d.admits (d.shortestFrom tries exponent) = true ∨ d.shortestFrom tries exponent = d.exactDecimal := by
  induction tries generalizing exponent with
  | zero => exact .inr rfl
  | succ tries ih =>
    rw [Dyadic.shortestFrom]
    cases hpoint : d.gridPoint? exponent with
    | none => exact ih (exponent - 1)
    | some c => exact .inl (admits_of_gridPoint? hpoint)

theorem value_exactDecimal (d : Dyadic) : d.exactDecimal.value = d.mantissa * 2 ^ d.exponent := by
  have hpow (b k : Nat) : Nat.pow b k = b ^ k := rfl
  rw [Dyadic.exactDecimal, Decimal.value]
  simp only [hpow]
  rcases le_total 0 d.exponent with hle | hle
  · have hnone : (-d.exponent).toNat = 0 := by omega
    rw [min_eq_right hle, hnone, zpow_of_nonneg 2 hle]
    simp
  · have hnone : d.exponent.toNat = 0 := by omega
    have hsplit : (10 : ℚ) ^ (-d.exponent).toNat = 2 ^ (-d.exponent).toNat * 5 ^ (-d.exponent).toNat := by
      rw [← mul_pow]
      norm_num
    rw [min_eq_left hle, hnone, zpow_of_nonpos 2 hle, zpow_of_nonpos 10 hle, hsplit]
    push_cast
    field_simp

/-- The digits that are found for a double round to it. -/
theorem rounded_shortest (hd : Settled d.mantissa d.exponent) (hpos : 0 < d.mantissa) :
    rounded d.shortest.value = d.mantissa * 2 ^ d.exponent := by
  rcases admits_shortestFrom d 20 _ with hadmits | hexact
  · exact rounded_of_admits hd hpos hadmits
  · rw [Dyadic.shortest, hexact, value_exactDecimal]
    have hstays := rounded_mul_two_zpow (m := d.mantissa) (e := d.exponent)
      (by rw [Nat.abs_cast]; exact_mod_cast hd.lt) hd.le
    rwa [Int.cast_natCast] at hstays

end Number

end PolishPseudocode
