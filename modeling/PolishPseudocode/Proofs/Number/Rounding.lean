import Mathlib.Algebra.Order.Floor.Ring
import Mathlib.Algebra.Order.Round
import Mathlib.Data.Int.Log
import Mathlib.Data.Rat.Floor
import Mathlib.Tactic.FieldSimp
import Mathlib.Tactic.Linarith
import PolishPseudocode.Number.Binary64

/-! Rounding of exact numbers to doubles. The last place of a double is fixed by the magnitude of the number it stands
for, down to the least place there is; a number is rounded to the nearest multiple of its last place, a half to the
even multiple. Rounding keeps the order, is the same on both sides of zero and leaves alone every number that is a
multiple of its last place. -/

namespace PolishPseudocode

namespace Number

/-- The integer nearest to a number; a half goes to the even neighbour. -/
def halfEven (q : ℚ) : Int :=
  if 2 * Int.fract q < 1 then ⌊q⌋
  else if 2 * Int.fract q = 1 then ⌊q⌋ + ⌊q⌋ % 2
  else ⌊q⌋ + 1

theorem halfEven_cast (n : Int) : halfEven n = n := by
  simp [halfEven]

theorem abs_halfEven_sub_le (q : ℚ) : |halfEven q - q| ≤ 1 / 2 := by
  have hfract : q = ⌊q⌋ + Int.fract q := (Int.floor_add_fract q).symm
  have hnonneg := Int.fract_nonneg q
  have hlt := Int.fract_lt_one q
  rw [halfEven, abs_le]
  split_ifs with hless hhalf
  · constructor <;> linarith
  · have hparity : ⌊q⌋ % 2 = 0 ∨ ⌊q⌋ % 2 = 1 := Int.emod_two_eq_zero_or_one _
    rcases hparity with h | h <;> rw [h] <;> push_cast <;> constructor <;> linarith
  · push_cast
    have hgt : 1 < 2 * Int.fract q := lt_of_le_of_ne (not_lt.1 hless) (Ne.symm hhalf)
    constructor <;> linarith

/-- Rounding keeps the order: numbers that round the other way round would be closer than a whole apart, and
neighbours that are both a half away from the same number go to the same side. -/
theorem halfEven_mono {p q : ℚ} (h : p ≤ q) : halfEven p ≤ halfEven q := by
  rcases h.eq_or_lt with rfl | hlt
  · exact le_refl _
  · have hp := (abs_le.1 (abs_halfEven_sub_le p)).2
    have hq := (abs_le.1 (abs_halfEven_sub_le q)).1
    have hcast : (halfEven p : ℚ) < halfEven q + 1 := by linarith
    exact Int.lt_add_one_iff.1 (by exact_mod_cast hcast)

theorem halfEven_neg (q : ℚ) : halfEven (-q) = -halfEven q := by
  by_cases hwhole : Int.fract q = 0
  · have hq : q = (⌊q⌋ : Int) := by
      conv_lhs => rw [← Int.floor_add_fract q, hwhole, add_zero]
    rw [hq, ← Int.cast_neg, halfEven_cast, halfEven_cast]
  · have hfract := Int.fract_neg hwhole
    have hfloor : ⌊-q⌋ = -⌊q⌋ - 1 := by
      have hsum : ((⌊-q⌋ : Int) : ℚ) = ((-⌊q⌋ - 1 : Int) : ℚ) := by
        have h₁ := Int.floor_add_fract q
        have h₂ := Int.floor_add_fract (-q)
        push_cast
        linarith
      exact_mod_cast hsum
    rw [halfEven, halfEven, hfract, hfloor]
    rcases lt_trichotomy (2 * Int.fract q) 1 with h | h | h
    · rw [if_neg (by linarith), if_neg (by linarith), if_pos h]
      ring
    · rw [if_neg (by linarith), if_pos (by linarith), if_neg (by linarith), if_pos h]
      omega
    · rw [if_pos (by linarith), if_neg (by linarith), if_neg (by linarith)]
      ring

/-- A number that is closer than a half to an integer rounds to it. -/
theorem halfEven_eq_of_lt {q : ℚ} {n : Int} (hlow : n - 1 / 2 < q) (hhigh : q < n + 1 / 2) : halfEven q = n := by
  have hnear := abs_le.1 (abs_halfEven_sub_le q)
  have hless : (halfEven q : ℚ) < n + 1 := by linarith
  have hmore : (n : ℚ) < halfEven q + 1 := by linarith
  have hless' : halfEven q < n + 1 := by exact_mod_cast hless
  have hmore' : n < halfEven q + 1 := by exact_mod_cast hmore
  omega

theorem halfEven_add_half {n : Int} (heven : n % 2 = 0) : halfEven (n + 1 / 2) = n := by
  have hfloor : ⌊(n + 1 / 2 : ℚ)⌋ = n := by
    rw [Int.floor_eq_iff]
    constructor <;> linarith
  have hfract : Int.fract (n + 1 / 2 : ℚ) = 1 / 2 := by
    rw [Int.fract, hfloor]
    ring
  rw [halfEven, hfract, hfloor, if_neg (by norm_num), if_pos (by norm_num), heven, add_zero]

/-- A number that is not more than a half away from an even integer rounds to it. -/
theorem halfEven_eq_of_le {q : ℚ} {n : Int} (heven : n % 2 = 0) (hlow : n - 1 / 2 ≤ q) (hhigh : q ≤ n + 1 / 2) :
    halfEven q = n := by
  have hbelow : halfEven (n - 1 / 2) = n := by
    have hneg : ((-n : Int) + 1 / 2 : ℚ) = -(n - 1 / 2) := by
      push_cast
      ring
    have hhalf := halfEven_add_half (n := -n) (by omega)
    rw [hneg, halfEven_neg] at hhalf
    omega
  apply le_antisymm
  · exact (halfEven_mono hhigh).trans (halfEven_add_half heven).le
  · exact hbelow.ge.trans (halfEven_mono hlow)

theorem halfEven_div (m d : Nat) (hd : 0 < d) : halfEven ((m : ℚ) / d) = (roundHalfEven m d : Nat) := by
  have hd' : (0 : ℚ) < d := by exact_mod_cast hd
  have hfloor : ⌊(m : ℚ) / d⌋ = ((m / d : Nat) : Int) := Rat.floor_natCast_div_natCast m d
  have hfract : Int.fract ((m : ℚ) / d) = ((m % d : Nat) : ℚ) / d := Int.fract_div_natCast_eq_div_natCast_mod
  have hless : 2 * Int.fract ((m : ℚ) / d) < 1 ↔ 2 * (m % d) < d := by
    rw [hfract, ← mul_div_assoc, div_lt_one hd']
    exact_mod_cast Iff.rfl
  have hhalf : 2 * Int.fract ((m : ℚ) / d) = 1 ↔ 2 * (m % d) = d := by
    rw [hfract, ← mul_div_assoc, div_eq_one_iff_eq hd'.ne']
    exact_mod_cast Iff.rfl
  rw [halfEven, roundHalfEven]
  simp only [hless, hhalf, hfloor]
  split_ifs <;> push_cast <;> rfl

/-! ### Places -/

/-- The exponent of the last place of a double of this magnitude. -/
def lastPlace (q : ℚ) : Int :=
  max (Int.log 2 |q| - 52) (-1074)

/-- The nearest multiple of the last place; a half goes to the even one. Its magnitude has no upper bound here. -/
def rounded (q : ℚ) : ℚ :=
  halfEven (q / 2 ^ lastPlace q) * 2 ^ lastPlace q

/-- The last place of a number that has as many digits above it as a double may have, and no fewer unless it is the
least place. -/
theorem lastPlace_eq {q : ℚ} {e : Int} (hpos : 0 < q) (hle : -1074 ≤ e) (hlt : q < 2 ^ (53 : Int) * 2 ^ e)
    (hfull : e ≠ -1074 → 2 ^ (52 : Int) * 2 ^ e ≤ q) : lastPlace q = e := by
  have hlog : Int.log 2 q < 53 + e := by
    refine (Int.lt_zpow_iff_log_lt (by norm_num) hpos).1 ?_
    rw [Nat.cast_ofNat, zpow_add₀ (by norm_num)]
    exact hlt
  have hlog' : e ≠ -1074 → 52 + e ≤ Int.log 2 q := fun hne => by
    refine (Int.zpow_le_iff_le_log (by norm_num) hpos).1 ?_
    rw [Nat.cast_ofNat, zpow_add₀ (by norm_num)]
    exact hfull hne
  rw [lastPlace, abs_of_pos hpos]
  rcases eq_or_ne e (-1074) with heq | hne
  · omega
  · have hge := hlog' hne
    omega

theorem lastPlace_neg (q : ℚ) : lastPlace (-q) = lastPlace q := by
  rw [lastPlace, lastPlace, abs_neg]

theorem two_zpow_pos (k : Int) : (0 : ℚ) < 2 ^ k :=
  zpow_pos (by norm_num) k

/-- A power with an integer exponent as a quotient of two natural powers, one of which is one. -/
theorem zpow_eq_div {b : ℚ} (hb : b ≠ 0) (e : Int) : b ^ e = b ^ e.toNat / b ^ (-e).toNat := by
  have hexponent : e = (e.toNat : Int) - ((-e).toNat : Int) := by omega
  conv_lhs => rw [hexponent]
  rw [zpow_sub₀ hb, zpow_natCast, zpow_natCast]

theorem zpow_of_nonneg (b : ℚ) {e : Int} (h : 0 ≤ e) : b ^ e = b ^ e.toNat := by
  rw [← zpow_natCast, Int.toNat_of_nonneg h]

theorem zpow_of_nonpos (b : ℚ) {e : Int} (h : e ≤ 0) : b ^ e = 1 / b ^ (-e).toNat := by
  rw [← zpow_natCast, Int.toNat_of_nonneg (neg_nonneg.2 h), zpow_neg, one_div, inv_inv]

theorem rounded_neg (q : ℚ) : rounded (-q) = -rounded q := by
  rw [rounded, rounded, lastPlace_neg, neg_div, halfEven_neg]
  push_cast
  ring

theorem rounded_zero : rounded 0 = 0 := by
  have h : halfEven 0 = 0 := by simpa using halfEven_cast 0
  simp [rounded, h]

/-- A multiple of the last place stays. -/
theorem rounded_eq_self {q : ℚ} {n : Int} (h : q = n * 2 ^ lastPlace q) : rounded q = q := by
  have hquotient : q / 2 ^ lastPlace q = n := by
    rw [div_eq_iff (two_zpow_pos _).ne']
    exact h
  rw [rounded, hquotient, halfEven_cast, ← h]

theorem rounded_le {q : ℚ} {n : Int} (h : q ≤ n * 2 ^ lastPlace q) : rounded q ≤ n * 2 ^ lastPlace q := by
  have hplace := two_zpow_pos (lastPlace q)
  have hle : halfEven (q / 2 ^ lastPlace q) ≤ n := by
    rw [← halfEven_cast n]
    exact halfEven_mono ((div_le_iff₀ hplace).2 h)
  exact mul_le_mul_of_nonneg_right (by exact_mod_cast hle) hplace.le

theorem le_rounded {q : ℚ} {n : Int} (h : n * 2 ^ lastPlace q ≤ q) : n * 2 ^ lastPlace q ≤ rounded q := by
  have hplace := two_zpow_pos (lastPlace q)
  have hle : n ≤ halfEven (q / 2 ^ lastPlace q) := by
    rw [← halfEven_cast n]
    exact halfEven_mono ((le_div_iff₀ hplace).2 h)
  exact mul_le_mul_of_nonneg_right (by exact_mod_cast hle) hplace.le

theorem lastPlace_mono {p q : ℚ} (hp : 0 < p) (h : p ≤ q) : lastPlace p ≤ lastPlace q := by
  have hlog : Int.log 2 |p| ≤ Int.log 2 |q| := by
    apply Int.log_mono_right (abs_pos.2 hp.ne')
    rwa [abs_of_pos hp, abs_of_pos (lt_of_lt_of_le hp h)]
  rw [lastPlace, lastPlace]
  omega

/-- A power of two above the last place is a multiple of it. -/
theorem two_zpow_eq {j k : Int} (h : k ≤ j) : (2 : ℚ) ^ j = ((2 ^ (j - k).toNat : Int) : ℚ) * 2 ^ k := by
  push_cast
  rw [← zpow_natCast, Int.toNat_of_nonneg (by omega), ← zpow_add₀ (by norm_num)]
  congr 1
  omega

theorem rounded_mono_of_pos {p q : ℚ} (hp : 0 < p) (h : p ≤ q) : rounded p ≤ rounded q := by
  have hq : 0 < q := lt_of_lt_of_le hp h
  rcases (lastPlace_mono hp h).eq_or_lt with hplace | hplace
  · rw [rounded, rounded, hplace]
    have hpos := two_zpow_pos (lastPlace q)
    have hle : halfEven (p / 2 ^ lastPlace q) ≤ halfEven (q / 2 ^ lastPlace q) :=
      halfEven_mono (div_le_div_of_nonneg_right h hpos.le)
    exact mul_le_mul_of_nonneg_right (by exact_mod_cast hle) hpos.le
  · -- the power of two at the head of the greater number lies between the two
    have hp' : lastPlace p = max (Int.log 2 |p| - 52) (-1074) := rfl
    have hq' : lastPlace q = max (Int.log 2 |q| - 52) (-1074) := rfl
    have hlog : Int.log 2 |p| < Int.log 2 |q| := by omega
    have hlast : lastPlace q = Int.log 2 |q| - 52 := by omega
    have hbelow : p ≤ 2 ^ Int.log 2 |q| := by
      calc p = |p| := (abs_of_pos hp).symm
        _ ≤ 2 ^ (Int.log 2 |p| + 1) := (Int.lt_zpow_succ_log_self (by norm_num) _).le
        _ ≤ 2 ^ Int.log 2 |q| := zpow_le_zpow_right₀ (by norm_num) hlog
    have habove : (2 : ℚ) ^ Int.log 2 |q| ≤ q := by
      calc (2 : ℚ) ^ Int.log 2 |q| ≤ |q| := Int.zpow_log_le_self (by norm_num) (abs_pos.2 hq.ne')
        _ = q := abs_of_pos hq
    calc rounded p ≤ 2 ^ Int.log 2 |q| := by
          have hplaces : lastPlace p ≤ Int.log 2 |q| := by omega
          rw [two_zpow_eq hplaces] at hbelow ⊢
          exact rounded_le hbelow
      _ ≤ rounded q := by
          have hplaces : lastPlace q ≤ Int.log 2 |q| := by omega
          rw [two_zpow_eq hplaces] at habove ⊢
          exact le_rounded habove

theorem rounded_nonneg {q : ℚ} (h : 0 ≤ q) : 0 ≤ rounded q := by
  have hle : ((0 : Int) : ℚ) * 2 ^ lastPlace q ≤ q := by simpa using h
  simpa using le_rounded hle

/-- Rounding keeps the order. -/
theorem rounded_mono {p q : ℚ} (h : p ≤ q) : rounded p ≤ rounded q := by
  rcases lt_or_ge 0 p with hp | hp
  · exact rounded_mono_of_pos hp h
  · have hp' : rounded p ≤ 0 := by
      have hnonneg := rounded_nonneg (neg_nonneg.2 hp)
      rw [rounded_neg] at hnonneg
      linarith
    rcases le_or_gt 0 q with hq | hq
    · exact hp'.trans (rounded_nonneg hq)
    · have hneg := rounded_mono_of_pos (neg_pos.2 hq) (neg_le_neg h)
      rw [rounded_neg, rounded_neg] at hneg
      linarith

/-- A number with at most fifty-three binary digits above the least place stays. -/
theorem rounded_mul_two_zpow {m e : Int} (hm : |m| < 2 ^ 53) (he : -1074 ≤ e) :
    rounded (m * 2 ^ e) = m * 2 ^ e := by
  rcases eq_or_ne m 0 with rfl | hne
  · simp [rounded_zero]
  · have hlt : |(m * 2 ^ e : ℚ)| < 2 ^ (53 + e) := by
      rw [abs_mul, abs_of_pos (two_zpow_pos e), zpow_add₀ (by norm_num)]
      exact mul_lt_mul_of_pos_right (by exact_mod_cast hm) (two_zpow_pos e)
    have hpos : 0 < |(m * 2 ^ e : ℚ)| :=
      abs_pos.2 (mul_ne_zero (by exact_mod_cast hne) (two_zpow_pos e).ne')
    have hlog : Int.log 2 |(m * 2 ^ e : ℚ)| < 53 + e := (Int.lt_zpow_iff_log_lt (by norm_num) hpos).1 hlt
    have hplace : lastPlace (m * 2 ^ e) ≤ e := by
      rw [lastPlace]
      omega
    have hmultiple : (m * 2 ^ e : ℚ) = ((m * 2 ^ (e - lastPlace (m * 2 ^ e)).toNat : Int) : ℚ)
        * 2 ^ lastPlace (m * 2 ^ e) := by
      conv_lhs => rw [two_zpow_eq hplace]
      push_cast
      ring
    exact rounded_eq_self hmultiple

/-- A number does not round to beyond a power of two. -/
theorem abs_rounded_le {q : ℚ} {k : Int} (hk : -1074 ≤ k) (h : |q| ≤ 2 ^ k) : |rounded q| ≤ 2 ^ k := by
  have hfix : rounded (2 ^ k) = 2 ^ k := by
    simpa using rounded_mul_two_zpow (m := 1) (by norm_num) hk
  rw [abs_le] at h ⊢
  rw [← hfix, ← rounded_neg]
  exact ⟨rounded_mono h.1, rounded_mono h.2⟩

/-- An integer whose magnitude is at most `2 ^ 53` stays. -/
theorem rounded_intCast {n : Int} (h : |n| ≤ 2 ^ 53) : rounded n = n := by
  rcases h.eq_or_lt with heq | hlt
  · have hhalf : (n : ℚ) = ((n / 2 : Int) : ℚ) * 2 ^ (1 : Int) := by
      have heven : n = n / 2 * 2 := by
        rcases abs_eq (by norm_num) |>.1 heq with h | h <;> omega
      rw [zpow_one]
      exact_mod_cast heven
    rw [hhalf]
    exact rounded_mul_two_zpow (by rw [abs_lt]; rw [abs_eq (by norm_num)] at heq; omega) (by norm_num)
  · simpa using rounded_mul_two_zpow (e := 0) hlt (by norm_num)

/-- An integer that is above another one stays above it. -/
theorem lt_rounded_intCast {c n : Int} (hc : |c| < 2 ^ 53) (h : c < n) : (c : ℚ) < rounded n := by
  have hstays : |c + 1| ≤ 2 ^ 53 := by
    rw [abs_lt] at hc
    rw [abs_le]
    omega
  calc (c : ℚ) < ((c + 1 : Int) : ℚ) := by exact_mod_cast Int.lt_succ c
    _ = rounded ((c + 1 : Int) : ℚ) := (rounded_intCast hstays).symm
    _ ≤ rounded n := rounded_mono (by exact_mod_cast h)

theorem rounded_intCast_lt {c n : Int} (hc : |c| < 2 ^ 53) (h : n < c) : rounded n < c := by
  have hneg := lt_rounded_intCast ((abs_neg c).trans_lt hc) (neg_lt_neg h)
  rw [Int.cast_neg, Int.cast_neg, rounded_neg] at hneg
  exact neg_lt_neg_iff.1 hneg

end Number

end PolishPseudocode
