import Meristem.Decimal.Shortest

/-!
Rounding to single precision, the one in which instance data are kept. The result is a double
again: 24 bits at most, fewer below the smallest normal single, and an infinity where the singles
end.
-/

namespace Meristem.Binary32

open Decimal (Ratio)

/-- The exponent of the smallest singles. -/
def minExponent : Int := -149

/-- The exponent from which on a single is infinite. -/
def overflowExponent : Int := 128

/-- The exponent of the last bit that a single keeps of `mantissa * 2 ^ exponent`. -/
def lastBit (mantissa : Nat) (exponent : Int) : Int :=
  max (mantissa.log2 + exponent - 23) minExponent

/-- A power of two, for the exponents of normal doubles. -/
def powerOfTwo (exponent : Int) : Float :=
  Float.ofBits ((exponent + 1023).toNat * Binary64.leadingBit).toUInt64

/-- The nearest single, the even one on a tie. -/
def round (x : Float) : Float :=
  match Binary64.ofFloat x with
  | .nan | .infinite _ => x
  | .finite negative mantissa exponent =>
    let bit := lastBit mantissa exponent
    let count := (Ratio.ofDyadic mantissa (exponent - bit)).round
    let magnitude :=
      -- rounding up can carry into the first exponent without singles
      if count ≠ 0 ∧ overflowExponent ≤ count.log2 + bit then 1.0 / 0.0
      else count.toUInt64.toFloat * powerOfTwo bit
    if negative then -magnitude else magnitude

end Meristem.Binary32
