/-! Doubles as exact numbers. A finite double is a natural mantissa times a power of two with a
sign, and every rational number has one nearest double, ties going to the even mantissa. Both
directions are exact natural number arithmetic, so that what is computed from a double (digits,
floors, remainders) is computed without rounding. -/

namespace PolishPseudocode

/-- The number `mantissa * 2 ^ exponent` with a sign, which a zero keeps too. -/
structure Dyadic where
  negative : Bool
  mantissa : Nat
  exponent : Int
deriving DecidableEq, Repr

inductive Shape where
  | notANumber
  | infinite (negative : Bool)
  | finite (value : Dyadic)
deriving DecidableEq, Repr

/-- Reads the three fields of a double: sign, eleven bits of exponent, fifty-two bits of fraction.
-/
def Shape.ofFloat (x : Float) : Shape :=
  let bits := x.toBits.toNat
  let negative := decide (Nat.pow 2 63 ≤ bits)
  let field : Nat := bits / Nat.pow 2 52 % Nat.pow 2 11
  let fraction : Nat := bits % Nat.pow 2 52
  if field = 2047 then
    if fraction = 0 then .infinite negative else .notANumber
  else if field = 0 then
    .finite ⟨negative, fraction, -1074⟩
  else
    .finite ⟨negative, Nat.pow 2 52 + fraction, (field : Int) - 1075⟩

namespace Number

/-- The integer nearest to `num / den`; a half goes to the even neighbour. -/
def roundHalfEven (num den : Nat) : Nat :=
  let whole := num / den
  let twice := 2 * (num % den)
  if twice < den then whole
  else if twice = den then whole + whole % 2
  else whole + 1

/-- The greatest `e` with `2 ^ e ≤ num / den`, for a positive numerator. -/
def floorLog2 (num den : Nat) : Int :=
  let e : Int := (num.log2 : Int) - (den.log2 : Int)
  if den * Nat.pow 2 e.toNat ≤ num * Nat.pow 2 (-e).toNat then e else e - 1

/-- The sign-free bits of positive infinity; the bits of larger finite numbers lie below. -/
def infinityCode : Nat :=
  2047 * Nat.pow 2 52

/-- The sign-free bits of the double nearest to `num / den`. The last place of that double is `2 ^
(place - 1074)`; its mantissa, counted in last places, is added to the place in the exponent field,
where a mantissa of `2 ^ 53` after rounding carries over by itself. -/
def nearestCode (num den : Nat) : Nat :=
  if num = 0 then 0
  else
    let place := (floorLog2 num den + 1022).toNat
    let mantissa := roundHalfEven (num * Nat.pow 2 (1074 - place)) (den * Nat.pow 2 (place - 1074))
    min (place * Nat.pow 2 52 + mantissa) infinityCode

/-- The double nearest to `num / den` with the given sign; a tie goes to the even mantissa and what
is too large becomes infinite. -/
def nearest (negative : Bool) (num den : Nat) : Float :=
  Float.ofBits (UInt64.ofNat (nearestCode num den + if negative then Nat.pow 2 63 else 0))

/-- The double nearest to `digits / 10 ^ places`, as a decimal numeral denotes it. -/
def ofDecimal (digits places : Nat) : Float :=
  nearest false digits (Nat.pow 10 places)

/-- The double nearest to a dyadic number. -/
def ofDyadic (d : Dyadic) : Float :=
  nearest d.negative (d.mantissa * Nat.pow 2 d.exponent.toNat) (Nat.pow 2 (-d.exponent).toNat)

end Number

end PolishPseudocode
