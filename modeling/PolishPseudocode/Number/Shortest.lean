import PolishPseudocode.Number.Binary64

/-! The shortest decimal that reads back. Around a finite double lies the interval of the numbers
that round to it. Decimal grids are tried from coarse to fine; on each the two neighbours of the
double are tested, and the first grid with a neighbour inside the interval gives the digits. -/

namespace PolishPseudocode

/-- The number `digits * 10 ^ exponent`. -/
structure Decimal where
  digits : Nat
  exponent : Int
deriving DecidableEq, Repr

namespace Dyadic

/-- Whether a decimal lies among the numbers that round to this magnitude. In quarters of the last
place the interval reaches two up and two down, below a power of two only one down, and its ends
belong to it if the mantissa is even. -/
def admits (d : Dyadic) (c : Decimal) : Bool :=
  let down := if d.mantissa = Nat.pow 2 52 ∧ -1074 < d.exponent then 1 else 2
  let quarter := Nat.pow 2 (d.exponent - 2).toNat * Nat.pow 10 (-c.exponent).toNat
  let point := c.digits * (Nat.pow 10 c.exponent.toNat * Nat.pow 2 (2 - d.exponent).toNat)
  let low := (4 * d.mantissa - down) * quarter
  let high := (4 * d.mantissa + 2) * quarter
  if d.mantissa % 2 = 0 then low ≤ point && point ≤ high else low < point && point < high

/-- The neighbour of this magnitude on the grid of the multiples of `10 ^ exponent` that lies in its
interval; of two the nearer one, and the upper one if both are as near. -/
def gridPoint? (d : Dyadic) (exponent : Int) : Option Decimal :=
  let num := d.mantissa * (Nat.pow 2 d.exponent.toNat * Nat.pow 10 (-exponent).toNat)
  let den := Nat.pow 2 (-d.exponent).toNat * Nat.pow 10 exponent.toNat
  let below : Decimal := ⟨num / den, exponent⟩
  let above : Decimal := ⟨num / den + 1, exponent⟩
  match d.admits below, d.admits above with
  | true, true => if 2 * (num % den) < den then some below else some above
  | true, false => some below
  | false, true => some above
  | false, false => none

/-- The decimal that equals this magnitude. -/
def exactDecimal (d : Dyadic) : Decimal :=
  ⟨d.mantissa * Nat.pow 2 d.exponent.toNat * Nat.pow 5 (-d.exponent).toNat, min d.exponent 0⟩

/-- Tries `tries` grids, each ten times finer than the one before. -/
def shortestFrom (d : Dyadic) : Nat → Int → Decimal
  | 0, _ => d.exactDecimal
  | tries + 1, exponent => (d.gridPoint? exponent).getD (d.shortestFrom tries (exponent - 1))

/-- The decimal with the fewest digits that rounds to this magnitude, and the nearest of those. The
first grid is coarser than the magnitude (`30103 / 100000` is just above the decimal logarithm of
two), and a grid of seventeen digits always has a point inside. -/
def shortest (d : Dyadic) : Decimal :=
  let bits : Int := d.mantissa.log2 + 1 + d.exponent
  d.shortestFrom 20 (bits * 30103 / 100000 + 1)

end Dyadic

end PolishPseudocode
