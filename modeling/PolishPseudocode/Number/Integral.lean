import PolishPseudocode.Number.Binary64

/-! Whole numbers among the doubles: floor, ceiling, exact remainder, the slot that an index
addresses and the double of a length. -/

namespace PolishPseudocode

/-- The natural number a dyadic number equals, if it is one; both zeros are. -/
def Dyadic.natural? (d : Dyadic) : Option Nat :=
  if d.mantissa = 0 then some 0
  else if d.negative then none
  else
    let unit := Nat.pow 2 (-d.exponent).toNat
    if d.mantissa % unit = 0 then some (d.mantissa / unit * Nat.pow 2 d.exponent.toNat) else none

/-- The magnitude without its fraction; a fraction that was there counts as one more if `outward`.
The sign stays, so a zero may be negative. -/
def Dyadic.whole (d : Dyadic) (outward : Bool) : Dyadic :=
  let unit := Nat.pow 2 (-d.exponent).toNat
  let below := d.mantissa / unit
  let magnitude := if outward && d.mantissa % unit != 0 then below + 1 else below
  ⟨d.negative, magnitude, max d.exponent 0⟩

namespace Number

/-- The greatest whole number that is not above `x`; what is not finite stays. -/
def floor (x : Float) : Float :=
  match Shape.ofFloat x with
  | .finite d => ofDyadic (d.whole d.negative)
  | _ => x

/-- The least whole number that is not below `x`; what is not finite stays. -/
def ceiling (x : Float) : Float :=
  match Shape.ofFloat x with
  | .finite d => ofDyadic (d.whole !d.negative)
  | _ => x

/-- The value that no number equals. -/
def notANumber : Float :=
  0 / 0

/-- What is left of `x` after taking away `y` as often as it fits, computed exactly and with the
sign of `x`. There is no remainder by zero or of an infinity, and an infinite `y` leaves `x`. -/
def remainder (x y : Float) : Float :=
  match Shape.ofFloat x, Shape.ofFloat y with
  | .finite a, .finite b =>
      if b.mantissa = 0 then notANumber
      else
        let unit := min a.exponent b.exponent
        let left := a.mantissa * Nat.pow 2 (a.exponent - unit).toNat
        let right := b.mantissa * Nat.pow 2 (b.exponent - unit).toNat
        ofDyadic ⟨a.negative, left % right, unit⟩
  | .finite _, .infinite _ => x
  | _, _ => notANumber

/-- The greatest integer such that it and all smaller ones are doubles. -/
def maxSafe : Nat :=
  Nat.pow 2 53 - 1

/-- The slot that an index addresses when the first slot has the index `origin`: the difference of
the two as doubles, if that is a natural number not above `maxSafe`. -/
def slot? (index : Float) (origin : Int) : Option Nat :=
  match Shape.ofFloat (index - Float.ofInt origin) with
  | .finite d => d.natural?.filter (· ≤ maxSafe)
  | _ => none

/-- A length as a double, not above `maxSafe`. -/
def ofLength (length : Nat) : Float :=
  Float.ofNat (min length maxSafe)

end Number

end PolishPseudocode
