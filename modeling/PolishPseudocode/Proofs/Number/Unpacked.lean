import Mathlib
import PolishPseudocode.Number.Integral

/-! Doubles by their fields. A double unpacks to a sign, a mantissa and an exponent, from which its bits are packed
again without loss. The reading of a double by its bits, which the conversions of numbers use, is the reading by these
fields, on which addition, subtraction and comparison are defined. -/

namespace PolishPseudocode

open Float.Model (UnpackedFloat Format)
open Float.Model.UnpackedFloat (Sign unpackMantissa unpackExponent unpackSign)

def isMinus : Sign → Bool
  | .negative => true
  | .positive => false

def Shape.ofUnpacked : UnpackedFloat → Shape
  | .notANumber => .notANumber
  | .infinity s => .infinite (isMinus s)
  | .zero s => .finite ⟨isMinus s, 0, -1074⟩
  | .finite s m e _ => .finite ⟨isMinus s, m, e⟩

theorem toNat_unpackMantissa (b : BitVec Format.binary64.numBits) :
    (unpackMantissa b).toNat = b.toNat % 2 ^ 52 := by
  simp [unpackMantissa]

theorem toNat_unpackExponent (b : BitVec Format.binary64.numBits) :
    (unpackExponent b).toNat = b.toNat / 2 ^ 52 % 2 ^ 11 := by
  simp [unpackExponent, Nat.shiftRight_eq_div_pow]

theorem toNat_unpackSign (b : BitVec Format.binary64.numBits) :
    (unpackSign b).toNat = b.toNat / 2 ^ 63 := by
  have hlt : b.toNat < 2 ^ 64 := b.isLt
  simp [unpackSign, Nat.shiftRight_eq_div_pow]
  omega

theorem isMinus_unpackSign (b : BitVec Format.binary64.numBits) :
    isMinus (Sign.ofBitVec (unpackSign b)) = decide (2 ^ 63 ≤ b.toNat) := by
  have hsign := toNat_unpackSign b
  by_cases h : 2 ^ 63 ≤ b.toNat
  · have hone : unpackSign b ≠ 0#1 := by
      intro hzero
      rw [hzero] at hsign
      simp at hsign
      omega
    rw [Sign.ofBitVec, if_neg hone, decide_eq_true h]
    rfl
  · have hzero : unpackSign b = 0#1 := by
      apply BitVec.eq_of_toNat_eq
      simp [hsign]
      omega
    rw [Sign.ofBitVec, if_pos hzero, decide_eq_false h]
    rfl

/-- The model's way to read a double is that of its bits. -/
theorem Shape.ofFloat_eq_ofUnpacked (x : Float) : Shape.ofFloat x = Shape.ofUnpacked x.toModel.unpack := by
  let b : BitVec Format.binary64.numBits := x.toModel.toBits.toBitVec
  have hmantissa := toNat_unpackMantissa b
  have hexponent := toNat_unpackExponent b
  have hsign := isMinus_unpackSign b
  have hfull : unpackExponent b = -1#_ ↔ b.toNat / 2 ^ 52 % 2 ^ 11 = 2047 := by
    rw [← BitVec.toNat_inj, hexponent]
    rfl
  have hempty : unpackExponent b = 0#_ ↔ b.toNat / 2 ^ 52 % 2 ^ 11 = 0 := by
    rw [← BitVec.toNat_inj, hexponent]
    rfl
  have hwhole : unpackMantissa b = 0#_ ↔ b.toNat % 2 ^ 52 = 0 := by
    rw [← BitVec.toNat_inj, hmantissa]
    rfl
  have himplicit : (1#1 ++ unpackMantissa b).toNat = 2 ^ 52 + b.toNat % 2 ^ 52 := by
    rw [BitVec.toNat_append, ← Nat.shiftLeft_add_eq_or_of_lt (unpackMantissa b).isLt, hmantissa]
    rfl
  rw [Shape.ofFloat]
  change (if b.toNat / 2 ^ 52 % 2 ^ 11 = 2047 then
      if b.toNat % 2 ^ 52 = 0 then Shape.infinite (decide (2 ^ 63 ≤ b.toNat)) else .notANumber
    else if b.toNat / 2 ^ 52 % 2 ^ 11 = 0 then .finite ⟨decide (2 ^ 63 ≤ b.toNat), b.toNat % 2 ^ 52, -1074⟩
    else .finite ⟨decide (2 ^ 63 ≤ b.toNat), 2 ^ 52 + b.toNat % 2 ^ 52, (b.toNat / 2 ^ 52 % 2 ^ 11 : Nat) - 1075⟩)
    = Shape.ofUnpacked (UnpackedFloat.unpack Format.binary64 b)
  unfold UnpackedFloat.unpack
  dsimp only
  by_cases hmax : b.toNat / 2 ^ 52 % 2 ^ 11 = 2047
  · rw [if_pos hmax, if_pos (hfull.2 hmax)]
    by_cases hzero : b.toNat % 2 ^ 52 = 0
    · rw [if_pos hzero, if_pos (hwhole.2 hzero), ← hsign]
      rfl
    · rw [if_neg hzero, if_neg fun h => hzero (hwhole.1 h)]
      rfl
  · rw [if_neg hmax, if_neg fun h => hmax (hfull.1 h)]
    by_cases hmin : b.toNat / 2 ^ 52 % 2 ^ 11 = 0
    · rw [if_pos hmin, if_pos (hempty.2 hmin), ← hsign]
      by_cases hzero : b.toNat % 2 ^ 52 = 0
      · rw [dif_pos (hwhole.2 hzero), hzero]
        rfl
      · rw [dif_neg fun h => hzero (hwhole.1 h), Shape.ofUnpacked, hmantissa, hexponent, hmin]
        rfl
    · rw [if_neg hmin, if_neg fun h => hmin (hempty.1 h), ← hsign, Shape.ofUnpacked, himplicit, hexponent]
      rfl

/-- The mantissa and the exponent of a double: fifty-three bits at most, and no fewer unless the exponent is the
least one. -/
structure Settled (m : Nat) (e : Int) : Prop where
  lt : m < 2 ^ 53
  le : -1074 ≤ e
  full : e ≠ -1074 → 2 ^ 52 ≤ m

theorem settled_of_unpack {x : Float} {s : Sign} {m : Nat} {e : Int} {hm : 0 < m}
    (h : x.toModel.unpack = .finite s m e hm) : Settled m e := by
  have hshape := Shape.ofFloat_eq_ofUnpacked x
  rw [h, Shape.ofUnpacked, Shape.ofFloat] at hshape
  have hfraction : x.toBits.toNat % 2 ^ 52 < 2 ^ 52 := Nat.mod_lt _ (by norm_num)
  split at hshape
  · split at hshape <;> cases hshape
  · rename_i hmax
    split at hshape
    · obtain ⟨-, rfl, rfl⟩ := Dyadic.mk.inj (Shape.finite.inj hshape)
      exact ⟨lt_trans hfraction (by norm_num), le_refl _, fun h => absurd rfl h⟩
    · rename_i hmin
      obtain ⟨-, rfl, rfl⟩ := Dyadic.mk.inj (Shape.finite.inj hshape)
      refine ⟨?_, by omega, fun _ => Nat.le_add_right _ _⟩
      calc 2 ^ 52 + x.toBits.toNat % 2 ^ 52 < 2 ^ 52 + 2 ^ 52 := Nat.add_lt_add_left hfraction _
        _ = 2 ^ 53 := by norm_num

theorem toNat_implicit (m : BitVec Format.binary64.mantissaBitsWithoutImplicit) :
    (1#1 ++ m).toNat = 2 ^ 52 + m.toNat := by
  rw [BitVec.toNat_append, ← Nat.shiftLeft_add_eq_or_of_lt m.isLt]
  rfl

theorem unpack_packComponents (s : Sign) (e : BitVec Format.binary64.exponentBits)
    (m : BitVec Format.binary64.mantissaBitsWithoutImplicit) :
    UnpackedFloat.unpack Format.binary64 (UnpackedFloat.packComponents Format.binary64 s e m)
      = if e = -1#_ then if m = 0#_ then .infinity s else .notANumber
        else if e = 0#_ then
          if h : m = 0#_ then .zero s
          else .finite s m.toNat (-1074) (by simpa [BitVec.toNat_pos, BitVec.pos_iff_ne_zero])
        else .finite s (1#1 ++ m).toNat ((e.toNat : Int) - 1075) (by rw [toNat_implicit]; omega) := by
  unfold UnpackedFloat.unpack
  simp only [Float.Model.UnpackedFloat.unpackMantissa_packComponents,
    Float.Model.UnpackedFloat.unpackExponent_packComponents, Float.Model.UnpackedFloat.unpackSign_packComponents,
    Sign.ofBitVec_toBitVec]
  split
  · rfl
  · split
    · rename_i h
      subst h
      rfl
    · rfl

/-- The three fields of a double that is packed. -/
theorem pack_finite (s : Sign) (m : Nat) (e : Int) (hm : 0 < m) :
    UnpackedFloat.pack Format.binary64 (.finite s m e hm)
      = if 2 ^ 11 ≤ (e + 1075).toNat + 1 then UnpackedFloat.packedInfinity Format.binary64 s
        else if m.log2 + 1 = 53 then
          UnpackedFloat.packComponents Format.binary64 s (BitVec.ofNat 11 (e + 1075).toNat) (BitVec.ofNat 52 m)
        else UnpackedFloat.packComponents Format.binary64 s 0#11 (BitVec.ofNat 52 m) := by
  have hbiased : (e + (Format.binary64.exponentBias : Int) + (52 : Nat)).toNat = (e + 1075).toNat := by
    rw [add_assoc]
    rfl
  rw [← hbiased]
  rfl

/-- A number that is too large is packed as an infinity. -/
theorem unpack_pack_of_large {s : Sign} {m : Nat} {e : Int} {hm : 0 < m} (he : 971 < e) :
    (Float.Model.pack (.finite s m e hm)).unpack = .infinity s := by
  change UnpackedFloat.unpack Format.binary64 (UnpackedFloat.pack Format.binary64 (.finite s m e hm)) = _
  rw [pack_finite, if_pos (by norm_num; omega)]
  cases s <;> rfl

/-- A double is packed without loss. -/
theorem unpack_pack {s : Sign} {m : Nat} {e : Int} {hm : 0 < m} (h : Settled m e) (he : e ≤ 971) :
    (Float.Model.pack (.finite s m e hm)).unpack = .finite s m e hm := by
  have hle := h.le
  change UnpackedFloat.unpack Format.binary64 (UnpackedFloat.pack Format.binary64 (.finite s m e hm)) = _
  rw [pack_finite, if_neg (by norm_num; omega)]
  by_cases hnormal : 2 ^ 52 ≤ m
  · have hlog : m.log2 = 52 := (Nat.log2_eq_iff hm.ne').2 ⟨hnormal, h.lt⟩
    have he' : (BitVec.ofNat 11 (e + 1075).toNat).toNat = (e + 1075).toNat := by
      rw [BitVec.toNat_ofNat, Nat.mod_eq_of_lt (by omega)]
    have hone : m / 2 ^ 52 = 1 := by
      have hlt := h.lt
      apply Nat.div_eq_of_lt_le <;> omega
    have hm' : (1#1 ++ BitVec.ofNat 52 m).toNat = m := by
      rw [toNat_implicit, BitVec.toNat_ofNat]
      change 2 ^ 52 + m % 2 ^ 52 = m
      omega
    have hmax : BitVec.ofNat 11 (e + 1075).toNat ≠ -1#11 := by
      rw [Ne, ← BitVec.toNat_inj, he']
      change (e + 1075).toNat ≠ 2047
      omega
    have hmin : BitVec.ofNat 11 (e + 1075).toNat ≠ 0#11 := by
      rw [Ne, ← BitVec.toNat_inj, he']
      change (e + 1075).toNat ≠ 0
      omega
    rw [hlog, if_pos rfl, unpack_packComponents, if_neg hmax, if_neg hmin]
    have he'' : ((e + 1075).toNat : Int) - 1075 = e := by omega
    simp only [hm', he', he'']
  · -- A mantissa without its full number of digits has the least exponent, and no implicit digit.
    have hlog : m.log2 < 52 := (Nat.log2_lt hm.ne').2 (by omega)
    obtain rfl : e = -1074 := by
      by_contra hne
      exact hnormal (h.full hne)
    have hm' : (BitVec.ofNat 52 m).toNat = m := by
      rw [BitVec.toNat_ofNat, Nat.mod_eq_of_lt (by omega)]
    have hzero : BitVec.ofNat 52 m ≠ 0#52 := by
      rw [Ne, ← BitVec.toNat_inj, hm']
      exact hm.ne'
    rw [if_neg (by omega), unpack_packComponents, if_neg (by decide), if_pos rfl, dif_neg hzero]
    simp only [hm']

end PolishPseudocode
