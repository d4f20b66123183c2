import PolishPseudocode.Proofs.Number.Rounding
import PolishPseudocode.Proofs.Number.Unpacked

/-! Arithmetic of doubles as arithmetic of the numbers they stand for. A finite double has an exact value; the
comparisons of doubles are those of their values, and their sums and differences are the exact ones, rounded to the
last place of the result, as long as this stays below `2 ^ 1024`. On integers up to `2 ^ 53` nothing is rounded. -/

namespace PolishPseudocode

open Float.Model (UnpackedFloat Format totalExponent)
open Float.Model.UnpackedFloat (Sign ExtendedMantissa Accuracy accuracyOfFraction)

def Dyadic.value (d : Dyadic) : ℚ :=
  ((if d.negative then -d.mantissa else d.mantissa : Int) : ℚ) * 2 ^ d.exponent

namespace Number

/-- The number that a finite double stands for; the two zeros stand for the same one. -/
def value? (x : Float) : Option ℚ :=
  match Shape.ofFloat x with
  | .finite d => some d.value
  | _ => none

/-- The number that an unpacked double stands for, if it is finite. -/
def rational? : UnpackedFloat → Option ℚ
  | .zero _ => some 0
  | .finite s m e _ => some (s.apply m * 2 ^ e)
  | _ => none

/-- The mantissa and the exponent of an unpacked double are those of its format. -/
def Canonical : UnpackedFloat → Prop
  | .finite _ m e _ => Settled m e
  | _ => True

theorem value?_eq (x : Float) : value? x = rational? x.toModel.unpack := by
  rw [value?, Shape.ofFloat_eq_ofUnpacked]
  cases x.toModel.unpack with
  | notANumber => rfl
  | infinity s => rfl
  | zero s => simp [Shape.ofUnpacked, rational?, Dyadic.value]
  | finite s m e hm => cases s <;> rfl

theorem canonical_unpack (x : Float) : Canonical x.toModel.unpack := by
  cases h : x.toModel.unpack with
  | finite s m e hm => exact settled_of_unpack h
  | notANumber | infinity s | zero s => exact trivial

/-! ### Rounding of a mantissa -/

theorem residue_eq {em : ExtendedMantissa} {r d : Nat} (h : em.accuracy = accuracyOfFraction r d) :
    (em.roundBit || em.stickyBit) = decide (r ≠ 0) := by
  obtain ⟨m, roundBit, stickyBit⟩ := em
  rw [accuracyOfFraction] at h
  by_cases hzero : r = 0
  · rw [if_pos hzero] at h
    cases roundBit <;> cases stickyBit <;> cases h
    simp [hzero]
  · rw [if_neg hzero] at h
    cases roundBit <;> cases stickyBit
    · cases h
    all_goals simp [hzero]

theorem accuracy_shiftRightOne {em : ExtendedMantissa} {r d : Nat} (hr : r < d)
    (h : em.accuracy = accuracyOfFraction r d) :
    em.shiftRightOne.accuracy = accuracyOfFraction (r + d * (em.mantissa % 2)) (2 * d) := by
  have hshift : em.shiftRightOne = ⟨em.mantissa / 2, em.mantissa % 2 != 0, decide (r ≠ 0)⟩ := by
    rw [ExtendedMantissa.shiftRightOne, residue_eq h]
  rw [hshift, accuracyOfFraction]
  rcases Nat.mod_two_eq_zero_or_one em.mantissa with hbit | hbit <;> by_cases hzero : r = 0
  · simp [hbit, hzero, ExtendedMantissa.accuracy]
  · have hlt : 2 * r < 2 * d := by omega
    simp [hbit, hzero, ExtendedMantissa.accuracy, Nat.compare_eq_lt.2 hlt]
  · have hd : d ≠ 0 := by omega
    simp [hbit, hzero, hd, ExtendedMantissa.accuracy]
  · have hgt : 2 * d < 2 * (r + d) := by omega
    simp [hbit, hzero, ExtendedMantissa.accuracy, Nat.compare_eq_gt.2 hgt]

theorem accuracy_shiftRight (m k : Nat) :
    (ExtendedMantissa.ofMantissaAndAccuracy m .exact >>> k).mantissa = m / 2 ^ k
      ∧ (ExtendedMantissa.ofMantissaAndAccuracy m .exact >>> k).accuracy = accuracyOfFraction (m % 2 ^ k) (2 ^ k) := by
  induction k with
  | zero =>
    refine ⟨(Nat.div_one m).symm, ?_⟩
    simp [Nat.mod_one, accuracyOfFraction]
    rfl
  | succ k ih =>
    obtain ⟨hmantissa, haccuracy⟩ := ih
    have hsucc : ExtendedMantissa.ofMantissaAndAccuracy m .exact >>> (k + 1)
        = (ExtendedMantissa.ofMantissaAndAccuracy m .exact >>> k).shiftRightOne := rfl
    refine ⟨?_, ?_⟩
    · rw [hsucc, pow_succ, ← Nat.div_div_eq_div_mul, ← hmantissa]
      rfl
    · rw [hsucc, accuracy_shiftRightOne (Nat.mod_lt _ (by positivity)) haccuracy, hmantissa, pow_succ',
        ← Nat.mod_mul, mul_comm 2]

/-- The double's way to round a mantissa that is shifted is to the nearest integer, a half to the even one. -/
theorem roundedMantissa_shiftRight (m k : Nat) :
    (ExtendedMantissa.ofMantissaAndAccuracy m .exact >>> k).roundedMantissa = roundHalfEven m (2 ^ k) := by
  obtain ⟨hmantissa, haccuracy⟩ := accuracy_shiftRight m k
  rw [ExtendedMantissa.roundedMantissa, hmantissa, haccuracy, accuracyOfFraction, roundHalfEven]
  by_cases hzero : m % 2 ^ k = 0
  · simp [hzero, Accuracy.roundToNearestEven]
  · rw [if_neg hzero]
    rcases lt_trichotomy (2 * (m % 2 ^ k)) (2 ^ k) with h | h | h
    · rw [if_pos h, Nat.compare_eq_lt.2 h]
      rfl
    · rw [if_neg h.not_lt, if_pos h, Nat.compare_eq_eq.2 h]
      rfl
    · rw [if_neg h.not_gt, if_neg h.ne', Nat.compare_eq_gt.2 h]
      rfl

/-- The exponent that a mantissa is shifted to is that of the last place of the number. -/
theorem targetExponent_eq {m : Nat} (hm : 0 < m) (e : Int) :
    Format.binary64.targetExponent (totalExponent m e) = lastPlace (m * 2 ^ e) := by
  have hpos : (0 : ℚ) < m * 2 ^ e := mul_pos (by exact_mod_cast hm) (two_zpow_pos e)
  have hlog : Int.log 2 (m * 2 ^ e : ℚ) = m.log2 + e := by
    apply le_antisymm
    · have hlt : (m * 2 ^ e : ℚ) < ((2 : Nat) : ℚ) ^ (m.log2 + 1 + e : Int) := by
        rw [zpow_add₀ (by norm_num)]
        refine mul_lt_mul_of_pos_right ?_ (two_zpow_pos e)
        exact_mod_cast Nat.lt_log2_self
      have hlog := (Int.lt_zpow_iff_log_lt (by norm_num) hpos).1 hlt
      omega
    · refine (Int.zpow_le_iff_le_log (by norm_num) hpos).1 ?_
      rw [zpow_add₀ (by norm_num)]
      refine mul_le_mul_of_nonneg_right ?_ (two_zpow_pos e).le
      exact_mod_cast Nat.log2_self_le hm.ne'
  rw [lastPlace, abs_of_pos hpos, hlog]
  change max ((m.log2 : Int) + 1 + e - 53) (-1074) = _
  omega

/-- The rounded mantissa of a positive number, counted in last places, has at most fifty-three digits, but for the
one of the next power of two. -/
theorem halfEven_le {q : ℚ} (hq : 0 < q) : halfEven (q / 2 ^ lastPlace q) ≤ 2 ^ 53 := by
  have hlog : Int.log 2 |q| ≤ lastPlace q + 52 := by
    rw [lastPlace]
    omega
  have hle : q / 2 ^ lastPlace q ≤ ((2 ^ 53 : Int) : ℚ) := by
    rw [div_le_iff₀ (two_zpow_pos _)]
    calc q = |q| := (abs_of_pos hq).symm
      _ ≤ 2 ^ (Int.log 2 |q| + 1) := (Int.lt_zpow_succ_log_self (by norm_num) _).le
      _ ≤ 2 ^ (53 + lastPlace q) := zpow_le_zpow_right₀ (by norm_num) (by omega)
      _ = ((2 ^ 53 : Int) : ℚ) * 2 ^ lastPlace q := by
          rw [zpow_add₀ (by norm_num)]
          norm_num
  calc halfEven (q / 2 ^ lastPlace q) ≤ halfEven ((2 ^ 53 : Int) : ℚ) := halfEven_mono hle
    _ = 2 ^ 53 := halfEven_cast _

theorem le_halfEven {q : ℚ} (hq : 0 < q) (hplace : lastPlace q ≠ -1074) :
    2 ^ 52 ≤ halfEven (q / 2 ^ lastPlace q) := by
  have hlog : lastPlace q = Int.log 2 |q| - 52 := by
    rw [lastPlace] at hplace ⊢
    omega
  have hle : ((2 ^ 52 : Int) : ℚ) ≤ q / 2 ^ lastPlace q := by
    rw [le_div_iff₀ (two_zpow_pos _)]
    calc ((2 ^ 52 : Int) : ℚ) * 2 ^ lastPlace q = 2 ^ (52 + lastPlace q) := by
          rw [zpow_add₀ (by norm_num)]
          norm_num
      _ = 2 ^ Int.log 2 |q| := by rw [hlog, add_sub_cancel]
      _ ≤ |q| := Int.zpow_log_le_self (by norm_num) (abs_pos.2 hq.ne')
      _ = q := abs_of_pos hq
  calc (2 ^ 52 : Int) = halfEven ((2 ^ 52 : Int) : ℚ) := (halfEven_cast _).symm
    _ ≤ halfEven (q / 2 ^ lastPlace q) := halfEven_mono hle

/-- A rounded mantissa with its exponent; where it has a digit too many, this is moved to the exponent. -/
def settle (s : Sign) (m : Nat) (e : Int) : UnpackedFloat :=
  if h : m = 0 then .zero s
  else if m = 2 ^ 53 then .finite s (2 ^ 52) (e + 1) (by norm_num)
  else .finite s m e (Nat.pos_of_ne_zero h)

/-- What a second look at the digits of a rounded mantissa does. -/
theorem shiftToTargetExponent_exact {m : Nat} {e : Int} (hm : m ≤ 2 ^ 53) (he : -1074 ≤ e) :
    UnpackedFloat.shiftToTargetExponent Format.binary64 m e .exact
      = if m = 2 ^ 53 then (⟨2 ^ 52, false, false⟩, e + 1) else (⟨m, false, false⟩, e) := by
  have htarget : Format.binary64.targetExponent (totalExponent m e) = max (m.log2 + 1 + e - 53) (-1074) := rfl
  rw [UnpackedFloat.shiftToTargetExponent, UnpackedFloat.shiftToExponent, htarget]
  by_cases hcarry : m = 2 ^ 53
  · have hlog : m.log2 = 53 := by
      rw [hcarry, Nat.log2_two_pow]
    have hshift : (max ((m.log2 : Int) + 1 + e - 53) (-1074) - e).toNat = 1 := by
      rw [hlog]
      omega
    rw [if_pos hcarry, hshift, hcarry]
    rfl
  · have hlog : m.log2 ≤ 52 := by
      rcases Nat.eq_zero_or_pos m with rfl | hpos
      · decide
      · exact Nat.lt_succ_iff.1 ((Nat.log2_lt hpos.ne').2 (by omega))
    have hshift : (max ((m.log2 : Int) + 1 + e - 53) (-1074) - e).toNat = 0 := by omega
    rw [if_neg hcarry, hshift, Nat.cast_zero, add_zero]
    rfl

theorem shifted_value (m k : Nat) (e : Int) : ((m * 2 ^ k : Nat) : ℚ) * 2 ^ (e - k) = m * 2 ^ e := by
  rw [zpow_sub₀ (by norm_num), zpow_natCast]
  push_cast
  field_simp

/-- The mantissa is shifted to the last place, is rounded there and settles. -/
theorem round_eq (s : Sign) {m : Nat} (hm : 0 < m) (e : Int) :
    UnpackedFloat.round Format.binary64 s m e
      = settle s (halfEven (m * 2 ^ e / 2 ^ lastPlace (m * 2 ^ e))).toNat (lastPlace (m * 2 ^ e)) := by
  have hlimit := halfEven_le (q := m * 2 ^ e) (mul_pos (by exact_mod_cast hm) (two_zpow_pos e))
  have hleast : -1074 ≤ lastPlace (m * 2 ^ e) := le_max_right _ _
  have htarget := targetExponent_eq hm e
  generalize lastPlace (m * 2 ^ e) = place at hlimit hleast htarget ⊢
  -- A mantissa that starts above its last place is first shifted to the left, without rounding.
  let m' := m * 2 ^ (e - place).toNat
  let e' := e - ((e - place).toNat : Int)
  have hm' : 0 < m' := Nat.mul_pos hm (by positivity)
  have hvalue : (m' * 2 ^ e' : ℚ) = m * 2 ^ e := shifted_value m _ e
  have hplace : Format.binary64.targetExponent (totalExponent m' e') = place := by
    rw [targetExponent_eq hm', hvalue, ← targetExponent_eq hm, htarget]
  have hle : e' ≤ place := by omega
  have hquotient : (m * 2 ^ e / 2 ^ place : ℚ) = (m' : ℚ) / ((2 ^ (place - e').toNat : Nat) : ℚ) := by
    rw [← hvalue, two_zpow_eq hle]
    push_cast
    field_simp [two_zpow_pos]
  have hrounded : (halfEven (m * 2 ^ e / 2 ^ place)).toNat = roundHalfEven m' (2 ^ (place - e').toNat) := by
    rw [hquotient, halfEven_div _ _ (by positivity), Int.toNat_natCast]
  have hlimit' : roundHalfEven m' (2 ^ (place - e').toNat) ≤ 2 ^ 53 := by omega
  have hfirst : UnpackedFloat.shiftToTargetExponent Format.binary64 m' e' .exact
      = (ExtendedMantissa.ofMantissaAndAccuracy m' .exact >>> (place - e').toNat, place) := by
    rw [UnpackedFloat.shiftToTargetExponent, UnpackedFloat.shiftToExponent, hplace, Int.toNat_of_nonneg (by omega),
      add_sub_cancel]
  have hdecrease : UnpackedFloat.decreaseExponent m e place = (m', e') := by
    rw [UnpackedFloat.decreaseExponent, Nat.shiftLeft_eq]
  rw [UnpackedFloat.round, htarget, hdecrease]
  dsimp only
  rw [UnpackedFloat.roundWithAccuracy, hfirst]
  dsimp only
  rw [roundedMantissa_shiftRight, shiftToTargetExponent_exact hlimit' hleast, settle, hrounded]
  by_cases hcarry : roundHalfEven m' (2 ^ (place - e').toNat) = 2 ^ 53
  · simp only [hcarry]
    rfl
  · simp only [if_neg hcarry]

/-- A rounded mantissa settles without change of the value. -/
theorem rational?_settle (s : Sign) (m : Nat) (e : Int) :
    rational? (settle s m e) = some (((s.apply m : Int) : ℚ) * 2 ^ e) := by
  rw [settle]
  split_ifs with hzero hcarry
  · rw [hzero]
    cases s <;> simp [rational?, Sign.apply]
  · rw [rational?, hcarry, zpow_add₀ (by norm_num)]
    cases s <;> norm_num [Sign.apply] <;> ring
  · rfl

theorem canonical_settle (s : Sign) {m : Nat} {e : Int} (hle : m ≤ 2 ^ 53) (he : -1074 ≤ e)
    (hfull : e ≠ -1074 → 2 ^ 52 ≤ m) : Canonical (settle s m e) := by
  rw [settle]
  split_ifs with hzero hcarry
  · exact trivial
  · exact ⟨by norm_num, by omega, fun _ => le_refl _⟩
  · exact ⟨lt_of_le_of_ne hle hcarry, he, hfull⟩

theorem canonical_round (s : Sign) {m : Nat} (hm : 0 < m) (e : Int) :
    Canonical (UnpackedFloat.round Format.binary64 s m e) := by
  have hq : (0 : ℚ) < m * 2 ^ e := mul_pos (by exact_mod_cast hm) (two_zpow_pos e)
  rw [round_eq s hm]
  refine canonical_settle s ?_ (le_max_right _ _) fun hplace => ?_
  · have hle := halfEven_le hq
    omega
  · have hle := le_halfEven hq hplace
    omega

theorem halfEven_nonneg {q : ℚ} (h : 0 ≤ q) : 0 ≤ halfEven q := by
  have hzero : halfEven 0 = 0 := by simpa using halfEven_cast 0
  rw [← hzero]
  exact halfEven_mono h

theorem rational?_round (s : Sign) {m : Nat} (hm : 0 < m) (e : Int) :
    rational? (UnpackedFloat.round Format.binary64 s m e) = some (rounded (((s.apply m : Int) : ℚ) * 2 ^ e)) := by
  have hq : (0 : ℚ) < m * 2 ^ e := mul_pos (by exact_mod_cast hm) (two_zpow_pos e)
  have hnonneg := halfEven_nonneg (div_pos hq (two_zpow_pos (lastPlace (m * 2 ^ e)))).le
  rw [round_eq s hm, rational?_settle]
  cases s with
  | positive =>
    simp only [Sign.apply, Int.toNat_of_nonneg hnonneg, Int.cast_natCast]
    rfl
  | negative =>
    simp only [Sign.apply, Int.toNat_of_nonneg hnonneg, Int.cast_neg, Int.cast_natCast, neg_mul, rounded_neg]
    rfl

theorem canonical_normalize (m e : Int) (s : Sign) : Canonical (UnpackedFloat.normalize Format.binary64 m e s) := by
  rw [UnpackedFloat.normalize]
  cases h : compare m 0 with
  | lt => exact canonical_round _ (by rw [compare_lt_iff_lt] at h; omega) e
  | eq => exact trivial
  | gt => exact canonical_round _ (by rw [compare_gt_iff_gt] at h; omega) e

/-- A signed mantissa is rounded to the nearest double. -/
theorem rational?_normalize (m e : Int) (s : Sign) :
    rational? (UnpackedFloat.normalize Format.binary64 m e s) = some (rounded (m * 2 ^ e)) := by
  rw [UnpackedFloat.normalize]
  cases h : compare m 0 with
  | lt =>
    rw [compare_lt_iff_lt] at h
    dsimp only
    rw [rational?_round _ (by omega), Sign.apply, Int.toNat_of_nonneg (by omega), neg_neg]
  | eq =>
    rw [compare_eq_iff_eq] at h
    simp [rational?, h, rounded_zero]
  | gt =>
    rw [compare_gt_iff_gt] at h
    dsimp only
    rw [rational?_round _ (by omega), Sign.apply, Int.toNat_of_nonneg h.le]

/-- A double is its own rounding. -/
theorem rounded_rational? {u : UnpackedFloat} {q : ℚ} (hu : Canonical u) (h : rational? u = some q) :
    rounded q = q := by
  cases u with
  | notANumber => cases h
  | infinity s => cases h
  | zero s =>
    obtain rfl := Option.some.inj h
    exact rounded_zero
  | finite s m e hm =>
    obtain rfl := Option.some.inj h
    have hlt : m < 2 ^ 53 := hu.lt
    refine rounded_mul_two_zpow ?_ hu.le
    cases s <;> simp only [Sign.apply, abs_neg, Nat.abs_cast] <;> exact_mod_cast hlt

/-! ### Sums -/

theorem canonical_add {u v : UnpackedFloat} (hu : Canonical u) (hv : Canonical v) :
    Canonical (UnpackedFloat.add Format.binary64 u v) := by
  cases u <;> cases v <;>
    first
    | exact trivial
    | exact hu
    | exact hv
    | exact canonical_normalize _ _ _
    | (rw [UnpackedFloat.add]; split <;> exact trivial)

/-- A mantissa with the exponent that it is brought to for a sum. -/
theorem decreaseExponent_value (s : Sign) (m : Nat) {e e' : Int} (h : e' ≤ e) :
    ((s.apply (UnpackedFloat.decreaseExponent m e e').1 : Int) : ℚ) * 2 ^ e' = ((s.apply m : Int) : ℚ) * 2 ^ e := by
  rw [UnpackedFloat.decreaseExponent, Nat.shiftLeft_eq, two_zpow_eq h]
  cases s <;> simp only [Sign.apply] <;> push_cast <;> ring

/-- A sum is the exact one, rounded. -/
theorem rational?_add {u v : UnpackedFloat} {p q : ℚ} (hu : Canonical u) (hv : Canonical v) (hp : rational? u = some p)
    (hq : rational? v = some q) : rational? (UnpackedFloat.add Format.binary64 u v) = some (rounded (p + q)) := by
  cases u with
  | notANumber => cases hp
  | infinity s => cases hp
  | zero s =>
    cases Option.some.inj hp
    cases v with
    | notANumber => cases hq
    | infinity s' => cases hq
    | zero s' =>
      cases Option.some.inj hq
      rw [UnpackedFloat.add, zero_add, rounded_zero]
      split <;> rfl
    | finite s' m e hm =>
      rw [zero_add, rounded_rational? hv hq]
      exact hq
  | finite s m e hm =>
    cases v with
    | notANumber => cases hq
    | infinity s' => cases hq
    | zero s' =>
      cases Option.some.inj hq
      rw [add_zero, rounded_rational? hu hp]
      exact hp
    | finite s' m' e' hm' =>
      cases Option.some.inj hp
      cases Option.some.inj hq
      rw [UnpackedFloat.add, ← decreaseExponent_value s m (min_le_left e e'),
        ← decreaseExponent_value s' m' (min_le_right e e')]
      dsimp only
      rw [rational?_normalize, Int.cast_add, add_mul]

theorem apply_neg (s : Sign) (n : Int) : (-s).apply n = -s.apply n := by
  cases s
  · exact (neg_neg n).symm
  · rfl

/-- A difference is the sum with the opposite number. -/
theorem sub_eq (u v : UnpackedFloat) :
    UnpackedFloat.sub Format.binary64 u v = UnpackedFloat.add Format.binary64 u v.neg := by
  cases u <;> cases v <;> try rfl
  simp only [UnpackedFloat.sub, UnpackedFloat.add, UnpackedFloat.neg, apply_neg, Int.sub_eq_add_neg]

theorem canonical_neg {u : UnpackedFloat} (hu : Canonical u) : Canonical u.neg := by
  cases u <;> exact hu

theorem rational?_neg {u : UnpackedFloat} {q : ℚ} (hq : rational? u = some q) : rational? u.neg = some (-q) := by
  cases u with
  | notANumber => cases hq
  | infinity s => cases hq
  | zero s =>
    cases Option.some.inj hq
    rw [neg_zero]
    rfl
  | finite s m e hm =>
    cases Option.some.inj hq
    rw [UnpackedFloat.neg, rational?, apply_neg, Int.cast_neg, neg_mul]

/-! ### Packing -/

/-- A number below `2 ^ 1024` is packed without loss. -/
theorem rational?_unpack_pack {u : UnpackedFloat} {q : ℚ} (hu : Canonical u) (h : rational? u = some q)
    (hq : |q| < 2 ^ (1024 : Int)) : rational? (Float.Model.pack u).unpack = some q := by
  cases u with
  | notANumber => cases h
  | infinity s => cases h
  | zero s =>
    rw [← h]
    cases s <;> rfl
  | finite s m e hm =>
    have hle : e ≤ 971 := by
      by_contra hgt
      have hfull : 2 ^ 52 ≤ m := hu.full (by omega)
      have hvalue : |q| = m * 2 ^ e := by
        rw [← Option.some.inj h, abs_mul, abs_of_pos (two_zpow_pos e)]
        cases s <;> simp [Sign.apply]
      have hge : (2 : ℚ) ^ (1024 : Int) ≤ m * 2 ^ e := by
        calc (2 : ℚ) ^ (1024 : Int) = 2 ^ (52 : Nat) * 2 ^ (972 : Int) := by
              rw [← zpow_natCast, ← zpow_add₀ (by norm_num)]
              rfl
          _ ≤ m * 2 ^ e := mul_le_mul (by exact_mod_cast hfull) (zpow_le_zpow_right₀ (by norm_num) (by omega))
              (two_zpow_pos _).le (Nat.cast_nonneg m)
      linarith
    rw [unpack_pack hu hle]
    exact h

/-- A sum that stays below `2 ^ 1024` is the exact one, rounded. -/
theorem value?_add {x y : Float} {p q : ℚ} (hx : value? x = some p) (hy : value? y = some q)
    (h : |rounded (p + q)| < 2 ^ (1024 : Int)) : value? (x + y) = some (rounded (p + q)) := by
  rw [value?_eq] at hx hy ⊢
  have hunpack : (x + y).toModel.unpack
      = (Float.Model.pack (UnpackedFloat.add Format.binary64 x.toModel.unpack y.toModel.unpack)).unpack := rfl
  rw [hunpack]
  have hu := canonical_unpack x
  have hv := canonical_unpack y
  exact rational?_unpack_pack (canonical_add hu hv) (rational?_add hu hv hx hy) h

theorem value?_sub {x y : Float} {p q : ℚ} (hx : value? x = some p) (hy : value? y = some q)
    (h : |rounded (p - q)| < 2 ^ (1024 : Int)) : value? (x - y) = some (rounded (p - q)) := by
  rw [value?_eq] at hx hy ⊢
  have hunpack : (x - y).toModel.unpack
      = (Float.Model.pack (UnpackedFloat.sub Format.binary64 x.toModel.unpack y.toModel.unpack)).unpack := rfl
  rw [hunpack, sub_eq]
  have hu := canonical_unpack x
  have hv := canonical_neg (canonical_unpack y)
  rw [sub_eq_add_neg] at h ⊢
  exact rational?_unpack_pack (canonical_add hu hv) (rational?_add hu hv hx (rational?_neg hy)) h

/-! ### Integers -/

theorem value?_zero : value? 0 = some 0 := by
  have hshape : Shape.ofFloat 0 = .finite ⟨false, 0, -1074⟩ := by decide +kernel
  rw [value?, hshape]
  simp [Dyadic.value]

theorem abs_rounded_lt {q : ℚ} (h : |q| ≤ 2 ^ (54 : Int)) : |rounded q| < 2 ^ (1024 : Int) :=
  (abs_rounded_le (by norm_num) h).trans_lt (zpow_lt_zpow_right₀ (by norm_num) (by norm_num))

theorem abs_intCast_le {n : Int} (h : |n| ≤ 2 ^ 54) : |(n : ℚ)| ≤ 2 ^ (54 : Int) := by
  exact_mod_cast h

/-- The sum of two integers is the exact one, as long as it is not above `2 ^ 53`. -/
theorem value?_add_intCast {x y : Float} {a b : Int} (hx : value? x = some (a : ℚ)) (hy : value? y = some (b : ℚ))
    (h : |a + b| ≤ 2 ^ 53) : value? (x + y) = some ((a + b : Int) : ℚ) := by
  have hlt := abs_rounded_lt (abs_intCast_le (h.trans (by norm_num)))
  have hsum := rounded_intCast h
  rw [Int.cast_add] at hsum hlt ⊢
  rw [value?_add hx hy hlt, hsum]

theorem value?_sub_intCast {x y : Float} {a b : Int} (hx : value? x = some (a : ℚ)) (hy : value? y = some (b : ℚ))
    (h : |a - b| ≤ 2 ^ 53) : value? (x - y) = some ((a - b : Int) : ℚ) := by
  have hlt := abs_rounded_lt (abs_intCast_le (h.trans (by norm_num)))
  have hdifference := rounded_intCast h
  rw [Int.cast_sub] at hdifference hlt ⊢
  rw [value?_sub hx hy hlt, hdifference]

/-! ### Comparisons -/

theorem lt_of_exponent_lt {m₁ m₂ : Nat} {e₁ e₂ : Int} (h₁ : Settled m₁ e₁) (h₂ : Settled m₂ e₂) (h : e₁ < e₂) :
    (m₁ * 2 ^ e₁ : ℚ) < m₂ * 2 ^ e₂ := by
  have hfull : 2 ^ 52 ≤ m₂ := h₂.full (by have := h₁.le; omega)
  calc (m₁ * 2 ^ e₁ : ℚ) < 2 ^ (53 : Nat) * 2 ^ e₁ :=
        mul_lt_mul_of_pos_right (by exact_mod_cast h₁.lt) (two_zpow_pos e₁)
    _ = 2 ^ (52 : Nat) * 2 ^ (e₁ + 1) := by
        rw [zpow_add_one₀ (by norm_num)]
        ring
    _ ≤ m₂ * 2 ^ e₂ := mul_le_mul (by exact_mod_cast hfull) (zpow_le_zpow_right₀ (by norm_num) h)
        (two_zpow_pos _).le (Nat.cast_nonneg m₂)

/-- The order of doubles by exponent and mantissa is that of the numbers. -/
theorem compare_settled {m₁ m₂ : Nat} {e₁ e₂ : Int} (h₁ : Settled m₁ e₁) (h₂ : Settled m₂ e₂) :
    (compare e₁ e₂).then (compare m₁ m₂) = compare (m₁ * 2 ^ e₁ : ℚ) (m₂ * 2 ^ e₂) := by
  rcases lt_trichotomy e₁ e₂ with h | rfl | h
  · rw [compare_lt_iff_lt.2 h, compare_lt_iff_lt.2 (lt_of_exponent_lt h₁ h₂ h)]
    rfl
  · rw [compare_eq_iff_eq.2 rfl, Ordering.then]
    rcases lt_trichotomy m₁ m₂ with hm | rfl | hm
    · rw [compare_lt_iff_lt.2 hm, eq_comm, compare_lt_iff_lt]
      exact mul_lt_mul_of_pos_right (by exact_mod_cast hm) (two_zpow_pos e₁)
    · rw [compare_eq_iff_eq.2 rfl, compare_eq_iff_eq.2 rfl]
    · rw [compare_gt_iff_gt.2 hm, eq_comm, compare_gt_iff_gt]
      exact mul_lt_mul_of_pos_right (by exact_mod_cast hm) (two_zpow_pos e₁)
  · rw [compare_gt_iff_gt.2 h, compare_gt_iff_gt.2 (lt_of_exponent_lt h₂ h₁ h)]
    rfl

theorem compare_neg_neg (p q : ℚ) : compare (-p) (-q) = (compare p q).swap := by
  rcases lt_trichotomy p q with h | rfl | h
  · rw [compare_lt_iff_lt.2 h, compare_gt_iff_gt.2 (neg_lt_neg h)]
    rfl
  · rw [compare_eq_iff_eq.2 rfl, compare_eq_iff_eq.2 rfl]
    rfl
  · rw [compare_gt_iff_gt.2 h, compare_lt_iff_lt.2 (neg_lt_neg h)]
    rfl

theorem compare_rational? {u v : UnpackedFloat} {p q : ℚ} (hu : Canonical u) (hv : Canonical v)
    (hp : rational? u = some p) (hq : rational? v = some q) : u.compare v = some (compare p q) := by
  have hpos (m : Nat) (e : Int) (hm : 0 < m) : (0 : ℚ) < m * 2 ^ e := mul_pos (by exact_mod_cast hm) (two_zpow_pos e)
  cases u with
  | notANumber => cases hp
  | infinity s => cases hp
  | zero s =>
    cases Option.some.inj hp
    cases v with
    | notANumber => cases hq
    | infinity s' => cases hq
    | zero s' =>
      cases Option.some.inj hq
      rfl
    | finite s' m' e' hm' =>
      cases Option.some.inj hq
      have hm := hpos m' e' hm'
      cases s'
      · simp only [UnpackedFloat.compare, Sign.apply, Int.cast_neg, Int.cast_natCast, neg_mul]
        rw [compare_gt_iff_gt.2 (neg_lt_zero.2 hm)]
      · simp only [UnpackedFloat.compare, Sign.apply, Int.cast_natCast]
        rw [compare_lt_iff_lt.2 hm]
  | finite s m e hm =>
    cases Option.some.inj hp
    have hm₁ := hpos m e hm
    cases v with
    | notANumber => cases hq
    | infinity s' => cases hq
    | zero s' =>
      cases Option.some.inj hq
      cases s
      · simp only [UnpackedFloat.compare, Sign.apply, Int.cast_neg, Int.cast_natCast, neg_mul]
        rw [compare_lt_iff_lt.2 (neg_lt_zero.2 hm₁)]
      · simp only [UnpackedFloat.compare, Sign.apply, Int.cast_natCast]
        rw [compare_gt_iff_gt.2 hm₁]
    | finite s' m' e' hm' =>
      cases Option.some.inj hq
      have hm₂ := hpos m' e' hm'
      -- Two negative numbers are in the opposite order of their magnitudes.
      cases s <;> cases s' <;>
        simp only [UnpackedFloat.compare, Sign.apply, Int.cast_neg, Int.cast_natCast, neg_mul]
      · rw [compare_settled hu hv, compare_neg_neg]
      · rw [compare_lt_iff_lt.2 (lt_trans (neg_lt_zero.2 hm₁) hm₂)]
      · rw [compare_gt_iff_gt.2 (lt_trans (neg_lt_zero.2 hm₂) hm₁)]
      · rw [compare_settled hu hv]

section

variable {x y : Float} {p q : ℚ} (hx : value? x = some p) (hy : value? y = some q)
include hx hy

theorem compare_value? : x.toModel.unpack.compare y.toModel.unpack = some (compare p q) := by
  rw [value?_eq] at hx hy
  exact compare_rational? (canonical_unpack x) (canonical_unpack y) hx hy

/-- Doubles are ordered as the numbers that they stand for. -/
theorem lt_iff : x < y ↔ p < q := by
  change decide (x.toModel.unpack.lt y.toModel.unpack = true) = true ↔ _
  rw [decide_eq_true_iff, UnpackedFloat.lt, compare_value? hx hy, ← compare_lt_iff_lt]
  cases compare p q <;> decide

theorem le_iff : x ≤ y ↔ p ≤ q := by
  change decide (x.toModel.unpack.le y.toModel.unpack = true) = true ↔ _
  rw [decide_eq_true_iff, UnpackedFloat.le, compare_value? hx hy, ← compare_le_iff_le]
  cases compare p q <;> decide

end

end Number

end PolishPseudocode
