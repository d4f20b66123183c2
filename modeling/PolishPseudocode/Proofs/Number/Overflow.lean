import PolishPseudocode.Proofs.Number.Conversion

/-! Sums that are too large. A sum whose rounded value is not below `2 ^ 1024` is an infinity of its sign, so that it
compares with every finite double as its rounded value does; and a sum with an infinity stays this infinity. -/

namespace PolishPseudocode

open Float.Model (UnpackedFloat Format)
open Float.Model.UnpackedFloat (Sign)

namespace Number

variable {x y z : Float} {p q r : ℚ}

theorem float_le_iff : x ≤ y ↔ x.toModel.unpack.le y.toModel.unpack = true := by
  change decide (x.toModel.unpack.le y.toModel.unpack = true) = true ↔ _
  rw [decide_eq_true_iff]

theorem float_lt_iff : x < y ↔ x.toModel.unpack.lt y.toModel.unpack = true := by
  change decide (x.toModel.unpack.lt y.toModel.unpack = true) = true ↔ _
  rw [decide_eq_true_iff]

/-- A finite double is a zero or has a mantissa. -/
theorem zero_or_finite (hx : value? x = some p) :
    (∃ s, x.toModel.unpack = .zero s) ∨ ∃ s m e hm, x.toModel.unpack = .finite s m e hm := by
  rw [value?_eq] at hx
  cases hu : x.toModel.unpack with
  | notANumber =>
      rw [hu] at hx
      cases hx
  | infinity s =>
      rw [hu] at hx
      cases hx
  | zero s => exact .inl ⟨s, rfl⟩
  | finite s m e hm => exact .inr ⟨s, m, e, hm, rfl⟩

/-! ### Infinities -/

section

variable {s : Sign} (hx : value? x = some p) (hy : y.toModel.unpack = .infinity s)

include hy

theorem zero_lt_infinity_iff : 0 < y ↔ s = .positive := by
  have hzero : (0 : Float).toModel.unpack = .zero .positive := rfl
  rw [float_lt_iff, hzero, hy]
  cases s <;> simp [UnpackedFloat.lt, UnpackedFloat.compare]

theorem infinity_lt_zero_iff : y < 0 ↔ s = .negative := by
  have hzero : (0 : Float).toModel.unpack = .zero .positive := rfl
  rw [float_lt_iff, hzero, hy]
  cases s <;> simp [UnpackedFloat.lt, UnpackedFloat.compare]

include hx

theorem infinity_le_iff : y ≤ x ↔ s = .negative := by
  rw [float_le_iff, hy]
  rcases zero_or_finite hx with ⟨s', hu⟩ | ⟨s', m, e, hm, hu⟩ <;> rw [hu] <;> cases s <;>
    simp [UnpackedFloat.le, UnpackedFloat.compare]

theorem le_infinity_iff : x ≤ y ↔ s = .positive := by
  rw [float_le_iff, hy]
  rcases zero_or_finite hx with ⟨s', hu⟩ | ⟨s', m, e, hm, hu⟩ <;> rw [hu] <;> cases s <;>
    simp [UnpackedFloat.le, UnpackedFloat.compare]

/-- A sum with an infinity. -/
theorem unpack_add_infinity : (x + y).toModel.unpack = .infinity s := by
  have hunpack : (x + y).toModel.unpack
      = (Float.Model.pack (UnpackedFloat.add Format.binary64 x.toModel.unpack y.toModel.unpack)).unpack := rfl
  have hpack : (Float.Model.pack (.infinity s)).unpack = .infinity s := by cases s <;> rfl
  rw [hunpack, hy]
  rcases zero_or_finite hx with ⟨s', hu⟩ | ⟨s', m, e, hm, hu⟩ <;> rw [hu] <;> exact hpack

end

/-! ### Overflow -/

/-- A number that is too large is packed as the infinity of its sign. -/
theorem unpack_pack_of_le {u : UnpackedFloat} (hu : Canonical u) (h : rational? u = some q)
    (hq : 2 ^ (1024 : Int) ≤ |q|) :
    (0 < q ∧ (Float.Model.pack u).unpack = .infinity .positive)
      ∨ (q < 0 ∧ (Float.Model.pack u).unpack = .infinity .negative) := by
  cases u with
  | notANumber => cases h
  | infinity s => cases h
  | zero s =>
      obtain rfl := Option.some.inj h
      rw [abs_zero] at hq
      exact absurd hq (not_le.2 (two_zpow_pos _))
  | finite s m e hm =>
      obtain rfl := Option.some.inj h
      have hpos : (0 : ℚ) < m * 2 ^ e := mul_pos (by exact_mod_cast hm) (two_zpow_pos e)
      have hlarge : 971 < e := by
        by_contra hle
        have hlt := Settled.value_lt hu (not_lt.1 hle)
        rw [abs_mul, abs_of_pos (two_zpow_pos e)] at hq
        cases s <;> simp only [Sign.apply, Int.cast_neg, abs_neg, Int.cast_natCast, Nat.abs_cast] at hq <;> linarith
      rw [unpack_pack_of_large hlarge]
      cases s with
      | positive => exact .inl ⟨hpos, rfl⟩
      | negative =>
          refine .inr ⟨?_, rfl⟩
          rw [Sign.apply, Int.cast_neg, neg_mul, neg_lt_zero]
          exact hpos

section

variable (hx : value? x = some p) (hy : value? y = some q)

include hx hy

theorem unpack_add_of_le (h : 2 ^ (1024 : Int) ≤ |rounded (p + q)|) :
    (0 < rounded (p + q) ∧ (x + y).toModel.unpack = .infinity .positive)
      ∨ (rounded (p + q) < 0 ∧ (x + y).toModel.unpack = .infinity .negative) := by
  rw [value?_eq] at hx hy
  have hu := canonical_unpack x
  have hv := canonical_unpack y
  exact unpack_pack_of_le (canonical_add hu hv) (rational?_add hu hv hx hy) h

theorem unpack_sub_of_le (h : 2 ^ (1024 : Int) ≤ |rounded (p - q)|) :
    ∃ s, (x - y).toModel.unpack = .infinity s := by
  have hunpack : (x - y).toModel.unpack
      = (Float.Model.pack (UnpackedFloat.sub Format.binary64 x.toModel.unpack y.toModel.unpack)).unpack := rfl
  rw [value?_eq] at hx hy
  have hu := canonical_unpack x
  have hv := canonical_neg (canonical_unpack y)
  rw [sub_eq_add_neg] at h
  rw [hunpack, sub_eq]
  rcases unpack_pack_of_le (canonical_add hu hv) (rational?_add hu hv hx (rational?_neg hy)) h with
    ⟨-, hpacked⟩ | ⟨-, hpacked⟩
  · exact ⟨_, hpacked⟩
  · exact ⟨_, hpacked⟩

variable (hz : value? z = some r)

include hz

/-- A sum compares with a finite double as the exact sum does once it is rounded, however large it is. -/
theorem add_le_iff : x + y ≤ z ↔ rounded (p + q) ≤ r := by
  rcases lt_or_ge |rounded (p + q)| (2 ^ (1024 : Int)) with hsmall | hlarge
  · exact le_iff (value?_add hx hy hsmall) hz
  · have hr := abs_lt.1 (abs_lt_of_value? hz)
    rcases unpack_add_of_le hx hy hlarge with ⟨hpos, hsum⟩ | ⟨hneg, hsum⟩
    · rw [infinity_le_iff hz hsum]
      rw [abs_of_pos hpos] at hlarge
      exact iff_of_false nofun (not_le.2 (hr.2.trans_le hlarge))
    · rw [infinity_le_iff hz hsum]
      rw [abs_of_neg hneg] at hlarge
      exact iff_of_true rfl (by linarith)

theorem le_add_iff : z ≤ x + y ↔ r ≤ rounded (p + q) := by
  rcases lt_or_ge |rounded (p + q)| (2 ^ (1024 : Int)) with hsmall | hlarge
  · exact le_iff hz (value?_add hx hy hsmall)
  · have hr := abs_lt.1 (abs_lt_of_value? hz)
    rcases unpack_add_of_le hx hy hlarge with ⟨hpos, hsum⟩ | ⟨hneg, hsum⟩
    · rw [le_infinity_iff hz hsum]
      rw [abs_of_pos hpos] at hlarge
      exact iff_of_true rfl (hr.2.le.trans hlarge)
    · rw [le_infinity_iff hz hsum]
      rw [abs_of_neg hneg] at hlarge
      exact iff_of_false nofun (not_le.2 (by linarith))

end

end Number

end PolishPseudocode
