import PolishPseudocode.Proofs.Number.Arithmetic

/-! Conversions that keep the number: bits, signs and integers. A finite double is given by its bits, and but for zero
by its number; its negation stands for that of its number, and an integer is converted to the double nearest to it. -/

namespace PolishPseudocode

open Float.Model (UnpackedFloat Format totalExponent)
open Float.Model.UnpackedFloat (Sign)

/-! ### Bits -/

/-- A finite double has its mantissa and its exponent within the limits of the format. -/
theorem Shape.settled_of_ofFloat {x : Float} {d : Dyadic} (h : Shape.ofFloat x = .finite d) :
    Settled d.mantissa d.exponent ∧ d.exponent ≤ 971 := by
  have hfraction : x.toBits.toNat % 2 ^ 52 < 2 ^ 52 := Nat.mod_lt _ (by norm_num)
  have hfield : x.toBits.toNat / 2 ^ 52 % 2 ^ 11 < 2 ^ 11 := Nat.mod_lt _ (by norm_num)
  rw [Shape.ofFloat] at h
  split at h
  · split at h <;> cases h
  · rename_i hmax
    split at h
    · obtain rfl := Shape.finite.inj h
      exact ⟨⟨hfraction.trans (by norm_num), le_refl _, fun hne => absurd rfl hne⟩, by norm_num⟩
    · rename_i hmin
      obtain rfl := Shape.finite.inj h
      have hmax' : x.toBits.toNat / 2 ^ 52 % 2 ^ 11 ≠ 2047 := hmax
      have hmin' : x.toBits.toNat / 2 ^ 52 % 2 ^ 11 ≠ 0 := hmin
      have hlt : 2 ^ 52 + x.toBits.toNat % 2 ^ 52 < 2 ^ 53 := by omega
      have hle : -1074 ≤ ((x.toBits.toNat / 2 ^ 52 % 2 ^ 11 : Nat) : Int) - 1075 := by omega
      have hge : ((x.toBits.toNat / 2 ^ 52 % 2 ^ 11 : Nat) : Int) - 1075 ≤ 971 := by omega
      exact ⟨⟨hlt, hle, fun _ => Nat.le_add_right _ _⟩, hge⟩

/-- The bits of a finite double are kept. -/
theorem toBits_ofBits {b : UInt64} (h : b.toNat / 2 ^ 52 % 2 ^ 11 ≠ 2047) : (Float.ofBits b).toBits = b := by
  have hvalid : Format.binary64.Valid b.toBitVec := by
    refine ⟨fun hfull => absurd ?_ h⟩
    have hfield := toNat_unpackExponent b.toBitVec
    rw [hfull] at hfield
    exact hfield.symm
  exact congrArg Float.toBits (Float.ofBits_toBits (.ofModel ⟨b, hvalid⟩))

theorem Dyadic.value_eq (d : Dyadic) :
    d.value = if d.negative then -((d.mantissa : ℚ) * 2 ^ d.exponent) else d.mantissa * 2 ^ d.exponent := by
  rw [value]
  split_ifs
  · rw [Int.cast_neg, neg_mul, Int.cast_natCast]
  · rw [Int.cast_natCast]

theorem Dyadic.abs_value (d : Dyadic) : |d.value| = d.mantissa * 2 ^ d.exponent := by
  rw [value, abs_mul, abs_of_pos (Number.two_zpow_pos _)]
  cases d.negative <;> simp

/-- With no greater exponent than a finite double has, a number is below `2 ^ 1024`. -/
theorem Settled.value_lt {m : Nat} {e : Int} (h : Settled m e) (he : e ≤ 971) :
    (m * 2 ^ e : ℚ) < 2 ^ (1024 : Int) := by
  calc (m * 2 ^ e : ℚ) < 2 ^ (53 : Nat) * 2 ^ e :=
        mul_lt_mul_of_pos_right (by exact_mod_cast h.lt) (Number.two_zpow_pos _)
    _ ≤ 2 ^ (53 : Nat) * 2 ^ (971 : Int) :=
        mul_le_mul_of_nonneg_left (zpow_le_zpow_right₀ (by norm_num) he) (by positivity)
    _ = 2 ^ (1024 : Int) := by
        rw [← zpow_natCast, ← zpow_add₀ (by norm_num)]
        rfl

namespace Number

variable {x y : Float} {p q : ℚ}

theorem value?_of_shape {d : Dyadic} (h : Shape.ofFloat x = .finite d) : value? x = some d.value := by
  rw [value?, h]

theorem exists_of_value? (h : value? x = some q) : ∃ d, Shape.ofFloat x = .finite d ∧ d.value = q := by
  rw [value?] at h
  split at h
  · rename_i d hd
    exact ⟨d, hd, Option.some.inj h⟩
  · cases h

theorem abs_lt_of_value? (h : value? x = some q) : |q| < 2 ^ (1024 : Int) := by
  obtain ⟨d, hd, rfl⟩ := exists_of_value? h
  obtain ⟨hsettled, hexponent⟩ := Shape.settled_of_ofFloat hd
  rw [d.abs_value]
  exact hsettled.value_lt hexponent

/-- What is packed as a finite double has not lost anything. -/
theorem rational?_of_unpack_pack {u : UnpackedFloat} (hu : Canonical u)
    (h : rational? (Float.Model.pack u).unpack = some q) : rational? u = some q := by
  cases u with
  | notANumber => cases h
  | infinity s => cases s <;> cases h
  | zero s => cases s <;> exact h
  | finite s m e hm =>
    rcases le_or_gt e 971 with he | he
    · rwa [unpack_pack hu he] at h
    · rw [unpack_pack_of_large he] at h
      cases h

theorem exists_of_rational?_sub {u v : UnpackedFloat}
    (h : rational? (UnpackedFloat.sub Format.binary64 u v) = some q) :
    (∃ p₁, rational? u = some p₁) ∧ ∃ p₂, rational? v = some p₂ := by
  cases u <;> cases v <;>
    first
    | exact ⟨⟨_, rfl⟩, _, rfl⟩
    | cases h
    | (rw [UnpackedFloat.sub] at h; split at h <;> cases h)

/-- A difference that is finite is that of two finite numbers, rounded. -/
theorem exists_of_value?_sub (h : value? (x - y) = some q) :
    ∃ p₁ p₂, value? x = some p₁ ∧ value? y = some p₂ ∧ rounded (p₁ - p₂) = q := by
  have hunpack : (x - y).toModel.unpack
      = (Float.Model.pack (UnpackedFloat.sub Format.binary64 x.toModel.unpack y.toModel.unpack)).unpack := rfl
  have hu := canonical_unpack x
  have hv := canonical_neg (canonical_unpack y)
  have hcanonical : Canonical (UnpackedFloat.sub Format.binary64 x.toModel.unpack y.toModel.unpack) := by
    rw [sub_eq]
    exact canonical_add hu hv
  rw [value?_eq, hunpack] at h
  have hdifference := rational?_of_unpack_pack hcanonical h
  obtain ⟨⟨p₁, hx⟩, p₂, hy⟩ := exists_of_rational?_sub hdifference
  refine ⟨p₁, p₂, by rw [value?_eq, hx], by rw [value?_eq, hy], ?_⟩
  rw [sub_eq, rational?_add hu hv hx (rational?_neg hy), ← sub_eq_add_neg] at hdifference
  exact Option.some.inj hdifference

/-- A double is its own rounding. -/
theorem rounded_value? (h : value? x = some q) : rounded q = q := by
  rw [value?_eq] at h
  exact rounded_rational? (canonical_unpack x) h

/-- The negation of a double stands for that of its number. -/
theorem value?_neg (h : value? x = some q) : value? (-x) = some (-q) := by
  have hlt : |-q| < 2 ^ (1024 : Int) := (abs_neg q).trans_lt (abs_lt_of_value? h)
  have hunpack : (-x).toModel.unpack = (Float.Model.pack x.toModel.unpack.neg).unpack := rfl
  rw [value?_eq] at h ⊢
  rw [hunpack]
  exact rational?_unpack_pack (canonical_neg (canonical_unpack x)) (rational?_neg h) hlt

/-! ### Equality -/

/-- Doubles are equal if they stand for the same number. -/
theorem beq_iff (hx : value? x = some p) (hy : value? y = some q) : (x == y) = true ↔ p = q := by
  change x.toModel.unpack.beq y.toModel.unpack = true ↔ _
  rw [UnpackedFloat.beq, compare_value? hx hy]
  refine Iff.trans ?_ (compare_eq_iff_eq : compare p q = .eq ↔ p = q)
  cases compare p q <;> decide

theorem eq_of_unpack_eq (h : x.toModel.unpack = y.toModel.unpack) : x = y := by
  have hpack (x : Float) : Float.ofModel (Float.Model.pack x.toModel.unpack) = x := Float.ofBits_toBits x
  rw [← hpack x, h, hpack y]

theorem Settled.eq_of_value_eq {m₁ m₂ : Nat} {e₁ e₂ : Int} (h₁ : Settled m₁ e₁) (h₂ : Settled m₂ e₂)
    (h : (m₁ * 2 ^ e₁ : ℚ) = m₂ * 2 ^ e₂) : m₁ = m₂ ∧ e₁ = e₂ := by
  rcases lt_trichotomy e₁ e₂ with hlt | rfl | hgt
  · exact absurd h (lt_of_exponent_lt h₁ h₂ hlt).ne
  · exact ⟨by exact_mod_cast mul_right_cancel₀ (two_zpow_pos e₁).ne' h, rfl⟩
  · exact absurd h (lt_of_exponent_lt h₂ h₁ hgt).ne'

/-- A number other than zero has one double only. -/
theorem eq_of_value? (hx : value? x = some q) (hy : value? y = some q) (hq : q ≠ 0) : x = y := by
  refine eq_of_unpack_eq ?_
  have hu := canonical_unpack x
  have hv := canonical_unpack y
  rw [value?_eq] at hx hy
  generalize x.toModel.unpack = u at hx hu ⊢
  generalize y.toModel.unpack = v at hy hv ⊢
  cases u with
  | notANumber => cases hx
  | infinity s => cases hx
  | zero s => exact absurd (Option.some.inj hx).symm hq
  | finite s m e hm =>
    cases v with
    | notANumber => cases hy
    | infinity s' => cases hy
    | zero s' => exact absurd (Option.some.inj hy).symm hq
    | finite s' m' e' hm' =>
      have hvalue := Option.some.inj (hx.trans hy.symm)
      have hpos : (0 : ℚ) < m * 2 ^ e := mul_pos (by exact_mod_cast hm) (two_zpow_pos e)
      have hpos' : (0 : ℚ) < m' * 2 ^ e' := mul_pos (by exact_mod_cast hm') (two_zpow_pos e')
      cases s <;> cases s' <;> simp only [Sign.apply, Int.cast_neg, Int.cast_natCast, neg_mul, neg_inj] at hvalue
      · obtain ⟨rfl, rfl⟩ := Settled.eq_of_value_eq hu hv hvalue
        rfl
      · linarith
      · linarith
      · obtain ⟨rfl, rfl⟩ := Settled.eq_of_value_eq hu hv hvalue
        rfl

/-! ### Integers -/

/-- A mantissa of full length does not start above its last place: it needs no shift to the left before it is rounded.
-/
theorem roundWithAccuracy_eq_round (s : Sign) {m : Nat} (hm : 2 ^ 52 ≤ m) (e : Int) :
    UnpackedFloat.roundWithAccuracy Format.binary64 s m e .exact = UnpackedFloat.round Format.binary64 s m e := by
  have hlog : 52 ≤ m.log2 := (Nat.le_log2 (by omega)).2 hm
  have htarget : Format.binary64.targetExponent (totalExponent m e) = max (m.log2 + 1 + e - 53) (-1074) := rfl
  have hshift : (e - Format.binary64.targetExponent (totalExponent m e)).toNat = 0 := by omega
  rw [UnpackedFloat.round, UnpackedFloat.decreaseExponent, hshift]
  simp

/-- A product whose mantissa is of full length is the exact one, rounded. -/
theorem rational?_mul_finite {s₁ s₂ : Sign} {m₁ m₂ : Nat} {e₁ e₂ : Int} {h₁ : 0 < m₁} {h₂ : 0 < m₂}
    (hfull : 2 ^ 52 ≤ m₁ * m₂) (hq : (((s₁ * s₂).apply (m₁ * m₂ : Nat) : Int) : ℚ) * 2 ^ (e₁ + e₂) = q)
    (hlt : |rounded q| < 2 ^ (1024 : Int)) :
    rational? (Float.Model.pack
        (UnpackedFloat.mul Format.binary64 (.finite s₁ m₁ e₁ h₁) (.finite s₂ m₂ e₂ h₂))).unpack = some (rounded q) := by
  have hpos : 0 < m₁ * m₂ := Nat.mul_pos h₁ h₂
  have hround : UnpackedFloat.mul Format.binary64 (.finite s₁ m₁ e₁ h₁) (.finite s₂ m₂ e₂ h₂)
      = UnpackedFloat.round Format.binary64 (s₁ * s₂) (m₁ * m₂) (e₁ + e₂) := roundWithAccuracy_eq_round _ hfull _
  rw [hround]
  refine rational?_unpack_pack (canonical_round _ hpos _) ?_ hlt
  rw [rational?_round _ hpos, hq]

theorem shifted_apply (s : Sign) (m k : Nat) (e : Int) :
    ((s.apply (m * 2 ^ k : Nat) : Int) : ℚ) * 2 ^ (e - k) = (s.apply m : Int) * 2 ^ e := by
  have hshift := shifted_value m k e
  cases s
  · simp only [Sign.apply, Int.cast_neg, Int.cast_natCast, neg_mul, hshift]
  · exact hshift

/-- A product with one. -/
theorem value?_mul_one (h : value? x = some q) : value? (x * Float.ofBits 0x3FF0000000000000) = some q := by
  have hone : (Float.ofBits 0x3FF0000000000000).toModel.unpack = .finite .positive (2 ^ 52) (-52) (by decide) := by
    rfl
  have hunpack : (x * Float.ofBits 0x3FF0000000000000).toModel.unpack
      = (Float.Model.pack (UnpackedFloat.mul Format.binary64 x.toModel.unpack
          (.finite .positive (2 ^ 52) (-52) (by decide)))).unpack := by
    rw [← hone]
    rfl
  have hlt := abs_lt_of_value? h
  have hrounded := rounded_value? h
  have hu := canonical_unpack x
  rw [value?_eq] at h ⊢
  rw [hunpack]
  generalize x.toModel.unpack = u at h hu ⊢
  cases u with
  | notANumber => cases h
  | infinity s => cases h
  | zero s =>
    refine rational?_unpack_pack ?_ h hlt
    exact trivial
  | finite s m e hm =>
    have hvalue : (((s * .positive).apply (m * 2 ^ 52 : Nat) : Int) : ℚ) * 2 ^ (e + -52) = q := by
      have hsign : s * .positive = s := by cases s <;> rfl
      rw [← Option.some.inj h, hsign, ← sub_eq_add_neg, ← shifted_apply s m 52 e]
      rfl
    have hfull : 2 ^ 52 ≤ m * 2 ^ 52 := Nat.le_mul_of_pos_left _ hm
    exact (rational?_mul_finite hfull hvalue (hrounded.symm ▸ hlt)).trans (congrArg some hrounded)

theorem abs_rounded_natCast_lt {n : Nat} (h : n < 2 ^ 64) : |rounded n| < 2 ^ (1024 : Int) := by
  have hle : |(n : ℚ)| ≤ 2 ^ (64 : Int) := by
    rw [Nat.abs_cast]
    exact_mod_cast h.le
  exact (abs_rounded_le (by norm_num) hle).trans_lt (zpow_lt_zpow_right₀ (by norm_num) (by norm_num))

theorem value?_ofNat_of_lt {n : Nat} (h : n < 2 ^ 53) : value? (Float.ofNat n) = some (rounded n) := by
  have hlt : n < 2 ^ 64 := h.trans (by norm_num)
  have hof : Float.ofNat n = n.toUInt64.toFloat * Float.ofBits 0x3FF0000000000000 := by
    change Float.ofScientific n false 0 = _
    rw [Float.ofScientific, dif_pos ⟨h, by norm_num⟩]
    rfl
  have hunpack : n.toUInt64.toFloat.toModel.unpack
      = (Float.Model.pack (UnpackedFloat.normalize Format.binary64 n 0 .positive)).unpack := by
    have htoNat : n.toUInt64.toNat = n := Nat.mod_eq_of_lt hlt
    conv_rhs => rw [← htoNat]
    rfl
  have hrational := rational?_normalize n 0 .positive
  rw [zpow_zero, mul_one] at hrational
  rw [hof]
  refine value?_mul_one ?_
  rw [value?_eq, hunpack]
  exact rational?_unpack_pack (canonical_normalize _ _ _) hrational (abs_rounded_natCast_lt hlt)

/-- A large natural number is multiplied by a power of two and divided by it again, to be rounded in between. -/
theorem value?_ofNat_of_le {n : Nat} (h : 2 ^ 53 ≤ n) (hlt : n < 2 ^ 64) :
    value? (Float.ofNat n) = some (rounded n) := by
  have hof : Float.ofNat n = Float.ofModel (Float.Model.ofScientific n 0) := by
    change Float.ofScientific n false 0 = _
    rw [Float.ofScientific, dif_neg fun hsmall => absurd hsmall.1 h.not_gt]
    rfl
  have hpos : 0 < n := by omega
  have hfull : 2 ^ 52 ≤ n <<< 53 * 10 ^ 0 := by
    rw [Nat.shiftLeft_eq]
    omega
  have hunpack : (Float.ofNat n).toModel.unpack
      = (Float.Model.pack (UnpackedFloat.mul Format.binary64
          (.finite .positive (n <<< 53) (-53) (by simpa [Nat.shiftLeft_eq] using hpos))
          (.finite .positive (10 ^ 0) 0 (by decide)))).unpack := by
    have hsmall : ¬ (0 : Int) < -((2 ^ Format.binary64.exponentBits : Int) + n.log2) := by
      have hbits : (0 : Int) ≤ 2 ^ Format.binary64.exponentBits := by decide
      omega
    rw [hof]
    change (Float.Model.pack (UnpackedFloat.ofScientific Format.binary64 n 0)).unpack = _
    rw [UnpackedFloat.ofScientific, dif_neg hpos.ne', if_neg (by decide), if_neg hsmall, if_pos (le_refl _)]
    rfl
  have hvalue :
      (((Sign.positive * .positive).apply (n <<< 53 * 10 ^ 0 : Nat) : Int) : ℚ) * 2 ^ (-53 + 0 : Int) = n := by
    have hshift := shifted_value n 53 0
    rw [zpow_zero, mul_one] at hshift
    rw [pow_zero, mul_one, Nat.shiftLeft_eq]
    exact hshift
  rw [value?_eq, hunpack]
  exact rational?_mul_finite hfull hvalue (abs_rounded_natCast_lt hlt)

/-- A natural number is converted to the double nearest to it. -/
theorem value?_ofNat {n : Nat} (h : n < 2 ^ 64) : value? (Float.ofNat n) = some (rounded n) := by
  rcases lt_or_ge n (2 ^ 53) with hsmall | hlarge
  · exact value?_ofNat_of_lt hsmall
  · exact value?_ofNat_of_le hlarge h

/-- An integer is converted to the double nearest to it. -/
theorem value?_ofInt {n : Int} (h : |n| < 2 ^ 64) : value? (Float.ofInt n) = some (rounded n) := by
  cases n with
  | ofNat n => exact value?_ofNat (by simpa using h)
  | negSucc n =>
    have hneg := value?_neg (value?_ofNat (n := n + 1) (by rw [Int.negSucc_eq, abs_neg] at h; exact_mod_cast h))
    rw [← rounded_neg] at hneg
    rw [Int.negSucc_eq]
    exact_mod_cast hneg

end Number

end PolishPseudocode
