import PolishPseudocode.Proofs.Number.Conversion

/-! Running sums. A number to which the same step is added again and again, and which is rounded each time, moves on as
long as the step is more than half of its last place. The step is rounded up to a power of two; `2 ^ 53` times this
power is where the sum comes to stand: the next double is twice the power away from it, and half of this is a tie, which
goes back to the even mantissa of the power of two. -/

namespace PolishPseudocode

namespace Number

/-! ### Last places -/

/-- Rounding moves a number by half of a place at most, if this is not finer than its last place. -/
theorem abs_rounded_sub_le {q : ℚ} {g : Int} (hg : -1074 ≤ g) (hq : |q| < 2 ^ (53 + g)) :
    |rounded q - q| ≤ 2 ^ g / 2 := by
  rcases eq_or_ne q 0 with rfl | hne
  · rw [rounded_zero, sub_zero, abs_zero]
    exact (half_pos (two_zpow_pos g)).le
  · have hplace : lastPlace q ≤ g := by
      have hlog := (Int.lt_zpow_iff_log_lt (b := 2) (by norm_num) (abs_pos.2 hne)).1 (by exact_mod_cast hq)
      rw [lastPlace]
      omega
    have hpos := two_zpow_pos (lastPlace q)
    calc |rounded q - q| = |halfEven (q / 2 ^ lastPlace q) - q / 2 ^ lastPlace q| * 2 ^ lastPlace q := by
          rw [← abs_of_pos hpos, ← abs_mul, sub_mul, abs_of_pos hpos, div_mul_cancel₀ _ hpos.ne', rounded]
      _ ≤ 1 / 2 * 2 ^ lastPlace q := mul_le_mul_of_nonneg_right (abs_halfEven_sub_le _) hpos.le
      _ ≤ 1 / 2 * 2 ^ g := by
          have hle : (2 : ℚ) ^ lastPlace q ≤ 2 ^ g := zpow_le_zpow_right₀ (by norm_num) hplace
          linarith
      _ = 2 ^ g / 2 := by ring

/-- A double is a whole number of every unit that is not coarser than its last place. -/
theorem exists_eq_mul_of_le_lastPlace {q : ℚ} {g : Int} (hq : rounded q = q) (hg : g ≤ lastPlace q) :
    ∃ n : Int, q = n * 2 ^ g := by
  refine ⟨halfEven (q / 2 ^ lastPlace q) * 2 ^ (lastPlace q - g).toNat, ?_⟩
  calc q = halfEven (q / 2 ^ lastPlace q) * 2 ^ lastPlace q := hq.symm
    _ = halfEven (q / 2 ^ lastPlace q) * (((2 ^ (lastPlace q - g).toNat : Int) : ℚ) * 2 ^ g) := by
        rw [← two_zpow_eq hg]
    _ = _ := by
        push_cast
        ring

theorem le_lastPlace {q : ℚ} {g : Int} (hq : 2 ^ (52 + g) ≤ |q|) : g ≤ lastPlace q := by
  have hpos : 0 < |q| := lt_of_lt_of_le (two_zpow_pos _) hq
  have hlog := (Int.zpow_le_iff_le_log (b := 2) (by norm_num) hpos).1 (by exact_mod_cast hq)
  rw [lastPlace]
  omega

theorem rounded_two_zpow {k : Int} (hk : -1074 ≤ k) : rounded (2 ^ k) = 2 ^ k := by
  simpa using rounded_mul_two_zpow (m := 1) (by norm_num) hk

/-- A number does not round to below a power of two. -/
theorem le_abs_rounded {q : ℚ} {k : Int} (hk : -1074 ≤ k) (h : 2 ^ k ≤ |q|) : 2 ^ k ≤ |rounded q| := by
  rw [← rounded_two_zpow hk]
  rcases le_abs.1 h with hpos | hneg
  · exact (rounded_mono hpos).trans (le_abs_self _)
  · rw [← abs_neg, ← rounded_neg]
    exact (rounded_mono hneg).trans (le_abs_self _)

/-- A power of two with half of the place behind it is a tie, which goes down to the power. -/
theorem rounded_tie {g : Int} (hg : -1074 ≤ g) : rounded (2 ^ (53 + g) + 2 ^ g) = 2 ^ (53 + g) := by
  have hpower : (2 : ℚ) ^ (53 + g) = 2 ^ 52 * 2 ^ (g + 1) := by
    rw [zpow_add₀ (by norm_num), zpow_add_one₀ (by norm_num)]
    ring
  have hhalf : (2 : ℚ) ^ g = 1 / 2 * 2 ^ (g + 1) := by
    rw [zpow_add_one₀ (by norm_num)]
    ring
  have hunit := two_zpow_pos (g + 1)
  have hsum : (2 : ℚ) ^ (53 + g) + 2 ^ g = (((2 ^ 52 : Int) : ℚ) + 1 / 2) * 2 ^ (g + 1) := by
    rw [hpower, hhalf]
    push_cast
    ring
  have hplace : lastPlace ((2 : ℚ) ^ (53 + g) + 2 ^ g) = g + 1 := by
    refine lastPlace_eq (add_pos (two_zpow_pos _) (two_zpow_pos _)) (by omega) ?_ fun _ => ?_
    · rw [hsum]
      exact mul_lt_mul_of_pos_right (by norm_num) hunit
    · rw [hsum]
      exact mul_le_mul_of_nonneg_right (by norm_num) hunit.le
  rw [rounded, hplace, hsum, mul_div_cancel_right₀ _ hunit.ne', halfEven_add_half (by norm_num), hpower]
  norm_num

/-! ### Running sums of numbers -/

/-- Where a running sum with this step comes to stand, but for the sign. -/
def standstill (d : ℚ) : ℚ :=
  2 ^ (53 + Int.clog 2 |d|)

/-- A number after some steps, each of which is rounded. -/
def runningSum (d p : ℚ) (k : Nat) : ℚ :=
  (fun q => rounded (q + d))^[k] p

theorem runningSum_succ (d p : ℚ) (k : Nat) : runningSum d p (k + 1) = rounded (runningSum d p k + d) :=
  Function.iterate_succ_apply' _ _ _

theorem runningSum_neg (d p : ℚ) (k : Nat) : runningSum (-d) (-p) k = -runningSum d p k := by
  induction k with
  | zero => rfl
  | succ k ih => rw [runningSum_succ, runningSum_succ, ih, ← neg_add, rounded_neg]

section

variable {d p : ℚ}

theorem standstill_neg (d : ℚ) : standstill (-d) = standstill d := by
  rw [standstill, standstill, abs_neg]

/-- The step is at most the power of two that it is rounded up to, and more than half of it. -/
theorem step_le_zpow (hd : 0 < d) : d ≤ 2 ^ Int.clog 2 |d| ∧ 2 ^ Int.clog 2 |d| / 2 < d := by
  have habs := abs_of_pos hd
  have hle := Int.self_le_zpow_clog (b := 2) (by norm_num) d
  have hlt := Int.zpow_pred_clog_lt_self (b := 2) (by norm_num) hd
  rw [zpow_sub_one₀ (by norm_num)] at hlt
  rw [habs]
  exact ⟨by exact_mod_cast hle, by exact_mod_cast hlt⟩

/-- A step that was rounded is no finer than the least place. -/
theorem le_clog_rounded {q : ℚ} (h : rounded q ≠ 0) : -1074 ≤ Int.clog 2 |rounded q| := by
  have hwhole : halfEven (q / 2 ^ lastPlace q) ≠ 0 := by
    intro hzero
    rw [rounded, hzero, Int.cast_zero, zero_mul] at h
    exact h rfl
  have hone : (1 : ℚ) ≤ |(halfEven (q / 2 ^ lastPlace q) : ℚ)| := by
    exact_mod_cast Int.one_le_abs hwhole
  have hleast : (2 : ℚ) ^ (-1074 : Int) ≤ |rounded q| := by
    calc (2 : ℚ) ^ (-1074 : Int) ≤ 2 ^ lastPlace q := zpow_le_zpow_right₀ (by norm_num) (le_max_right _ _)
      _ ≤ |(halfEven (q / 2 ^ lastPlace q) : ℚ)| * 2 ^ lastPlace q :=
          le_mul_of_one_le_left (two_zpow_pos _).le hone
      _ = |rounded q| := by rw [rounded, abs_mul, abs_of_pos (two_zpow_pos _)]
  have hclog := Int.self_le_zpow_clog (b := 2) (by norm_num) |rounded q|
  refine (zpow_le_zpow_iff_right₀ (a := (2 : ℚ)) (by norm_num)).1 (hleast.trans ?_)
  exact_mod_cast hclog

variable (hplace : -1074 ≤ Int.clog 2 |d|) (hd : 0 < d)

include hplace in
theorem rounded_standstill : rounded (standstill d) = standstill d :=
  rounded_two_zpow (by omega)

include hplace hd

/-- At the standstill a step is rounded away. -/
theorem rounded_standstill_add : rounded (standstill d + d) = standstill d := by
  apply le_antisymm
  · calc rounded (standstill d + d) ≤ rounded (2 ^ (53 + Int.clog 2 |d|) + 2 ^ Int.clog 2 |d|) :=
          rounded_mono (add_le_add (le_refl _) (step_le_zpow hd).1)
      _ = standstill d := rounded_tie hplace
  · calc standstill d = rounded (standstill d) := (rounded_standstill hplace).symm
      _ ≤ rounded (standstill d + d) := rounded_mono (le_add_of_nonneg_right hd.le)

variable (hp : |p| ≤ standstill d)

include hp

/-- A running sum does not pass the standstill. -/
theorem abs_runningSum_le (k : Nat) : |runningSum d p k| ≤ standstill d := by
  induction k with
  | zero => exact hp
  | succ k ih =>
      obtain ⟨hlow, hhigh⟩ := abs_le.1 ih
      rw [runningSum_succ, abs_le]
      constructor
      · calc -standstill d = rounded (-standstill d) := by rw [rounded_neg, rounded_standstill hplace]
          _ ≤ rounded (runningSum d p k + d) := rounded_mono (by linarith)
      · calc rounded (runningSum d p k + d) ≤ rounded (standstill d + d) := rounded_mono (by linarith)
          _ = standstill d := rounded_standstill_add hplace hd

/-- Up to the standstill every step moves the sum on, by no less than what the step is more than half of its power of
two. -/
theorem runningSum_ge (k : Nat) :
    p + k * (d - 2 ^ Int.clog 2 |d| / 2) ≤ runningSum d p k ∨ runningSum d p k = standstill d := by
  induction k with
  | zero => exact .inl (by simp [runningSum])
  | succ k ih =>
      have hbound := abs_le.1 (abs_runningSum_le hplace hd hp k)
      have hnext := abs_le.1 (abs_runningSum_le hplace hd hp (k + 1))
      rw [runningSum_succ] at hnext ⊢
      rcases ih with hmoved | hstill
      · rcases lt_or_ge (runningSum d p k + d) (standstill d) with hbelow | hbeyond
        · have hinside : |runningSum d p k + d| < standstill d := abs_lt.2 ⟨by linarith, hbelow⟩
          have hnear := abs_le.1 (abs_rounded_sub_le hplace hinside)
          refine .inl ?_
          push_cast
          linarith
        · refine .inr (le_antisymm hnext.2 ?_)
          calc standstill d = rounded (standstill d) := (rounded_standstill hplace).symm
            _ ≤ rounded (runningSum d p k + d) := rounded_mono hbeyond
      · rw [hstill]
        exact .inr (rounded_standstill_add hplace hd)

/-- A running sum comes to stand. -/
theorem exists_runningSum_eq : ∃ n, ∀ k ≥ n, runningSum d p k = standstill d := by
  have hgain : 0 < d - 2 ^ Int.clog 2 |d| / 2 := sub_pos.2 (step_le_zpow hd).2
  obtain ⟨n, hn⟩ := exists_nat_gt ((standstill d - p) / (d - 2 ^ Int.clog 2 |d| / 2))
  have hfar := (div_lt_iff₀ hgain).1 hn
  refine ⟨n, fun k hk => ?_⟩
  induction k, hk using Nat.le_induction with
  | base =>
      rcases runningSum_ge hplace hd hp n with hmoved | hstill
      · have hbound := (abs_le.1 (abs_runningSum_le hplace hd hp n)).2
        linarith
      · exact hstill
  | succ k _ ih =>
      rw [runningSum_succ, ih]
      exact rounded_standstill_add hplace hd

/-- What a running sum does not pass is at the standstill or behind it. -/
theorem forall_runningSum_le_iff {r : ℚ} : (∀ k, runningSum d p k ≤ r) ↔ standstill d ≤ r := by
  constructor
  · intro h
    obtain ⟨n, hn⟩ := exists_runningSum_eq hplace hd hp
    rw [← hn n (le_refl n)]
    exact h n
  · intro h k
    exact (abs_le.1 (abs_runningSum_le hplace hd hp k)).2.trans h

end

/-- A step from one double to another one is too large for the first to be beyond the standstill: there both would be
whole numbers of a place that is greater than the step. -/
theorem abs_le_standstill {p q : ℚ} (hp : rounded p = p) (hq : rounded q = q) (hd : rounded (q - p) ≠ 0) :
    |p| ≤ standstill (rounded (q - p)) := by
  let g := Int.clog 2 |rounded (q - p)|
  have hg : -1074 ≤ g := le_clog_rounded hd
  have hunit := two_zpow_pos (g + 1)
  have hstep : |rounded (q - p)| < 2 ^ (g + 1) := by
    have hle := (step_le_zpow (abs_pos.2 hd)).1
    rw [abs_abs] at hle
    exact hle.trans_lt (zpow_lt_zpow_right₀ (by norm_num) (lt_add_one g))
  have hnear : |q - p| < 2 ^ (g + 1) := not_le.1 fun hle => (le_abs_rounded (by omega) hle).not_gt hstep
  have hstandstill : standstill (rounded (q - p)) = ((2 ^ 52 : Int) : ℚ) * 2 ^ (g + 1) := by
    change (2 : ℚ) ^ (53 + g) = _
    have hexponent : 53 + g = 52 + (g + 1) := by ring
    rw [hexponent, zpow_add₀ (by norm_num)]
    norm_num
  have hmultiple {c : ℚ} (hc : rounded c = c) (hfar : standstill (rounded (q - p)) ≤ |c|) :
      ∃ n : Int, c = n * 2 ^ (g + 1) := by
    refine exists_eq_mul_of_le_lastPlace hc (le_lastPlace ?_)
    have hexponent : 52 + (g + 1) = 53 + g := by ring
    rw [hexponent]
    exact hfar
  by_contra hbeyond
  rw [not_le] at hbeyond
  obtain ⟨n, hn⟩ := hmultiple hp hbeyond.le
  have hfirst : ((2 ^ 52 + 1 : Int) : ℚ) * 2 ^ (g + 1) ≤ |p| := by
    rw [hstandstill, hn, abs_mul, abs_of_pos hunit] at hbeyond
    have hlarge : (2 ^ 52 : Int) < |n| := by exact_mod_cast lt_of_mul_lt_mul_right hbeyond hunit.le
    rw [hn, abs_mul, abs_of_pos hunit]
    exact mul_le_mul_of_nonneg_right (by exact_mod_cast hlarge) hunit.le
  rcases lt_or_ge |q| (standstill (rounded (q - p))) with hbelow | hfar
  · -- the first one is a whole place beyond the standstill
    have htriangle := abs_sub_abs_le_abs_sub p q
    rw [abs_sub_comm] at htriangle
    rw [hstandstill] at hbelow
    push_cast at hfirst hbelow
    linarith
  · obtain ⟨k, hk⟩ := hmultiple hq hfar
    have hne : k ≠ n := by
      rintro rfl
      rw [hk, ← hn, sub_self, rounded_zero] at hd
      exact hd rfl
    have hone : (1 : ℚ) ≤ |((k - n : Int) : ℚ)| := by
      exact_mod_cast Int.one_le_abs (sub_ne_zero.2 hne)
    rw [hk, hn, ← sub_mul, abs_mul, abs_of_pos hunit, ← Int.cast_sub] at hnear
    exact absurd hnear (not_lt.2 (le_mul_of_one_le_left hunit.le hone))

end Number

end PolishPseudocode
