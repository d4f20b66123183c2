import PolishPseudocode.Number.Shortest

/-! The written form of a number: the shortest digits, positional from a millionth up to `10 ^ 21`
and with an exponent outside. -/

namespace PolishPseudocode

namespace Decimal

/-- The decimal digits, without leading zeros. -/
def figures (c : Decimal) : List Char :=
  Nat.toDigits 10 c.digits

/-- How many of the figures stand before the point; zero or negative for a number below one. -/
def point (c : Decimal) : Int :=
  (c.figures.length : Int) + c.exponent

/-- Positional notation: zeros fill up to the point on either side. -/
def positional (c : Decimal) : List Char :=
  if 0 ≤ c.exponent then c.figures ++ List.replicate c.exponent.toNat '0'
  else if 0 < c.point then c.figures.take c.point.toNat ++ '.' :: c.figures.drop c.point.toNat
  else '0' :: '.' :: (List.replicate (-c.point).toNat '0' ++ c.figures)

/-- Scientific notation: one figure before the point, and an exponent that always has a sign. -/
def scientific (c : Decimal) : List Char :=
  let fraction :=
    match c.figures.drop 1 with
    | [] => []
    | rest => '.' :: rest
  let exponent := c.point - 1
  c.figures.take 1 ++ fraction ++ ['e', if exponent < 0 then '-' else '+']
    ++ Nat.toDigits 10 exponent.natAbs

end Decimal

namespace Number

/-- The least magnitude in positional notation. -/
def leastPositional : Float :=
  1e-6

/-- The least magnitude above positional notation. -/
def positionalLimit : Float :=
  1e21

/-- The written form of a number. Both zeros are `0`, a negative number starts with a minus. -/
def written (x : Float) : List Char :=
  match Shape.ofFloat x with
  | .notANumber => "NaN".toList
  | .infinite negative => (if negative then "-Infinity" else "Infinity").toList
  | .finite d =>
      if d.mantissa = 0 then ['0']
      else
        let magnitude := x.abs
        let digits :=
          if leastPositional ≤ magnitude ∧ magnitude < positionalLimit then d.shortest.positional
          else d.shortest.scientific
        if d.negative then '-' :: digits else digits

def text (x : Float) : String :=
  String.ofList (written x)

end Number

end PolishPseudocode
