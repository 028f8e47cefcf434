/-!
Positive decimal numbers as an integer coefficient and a power of ten, and how they are written:
with a point where the exponent is small, in scientific form elsewhere.
-/

namespace Meristem

/-- The number `coefficient * 10 ^ exponent`. -/
structure Decimal where
  coefficient : Nat
  exponent : Int
deriving DecidableEq, Repr

namespace Decimal

/-- Which numbers are written with a point and how wide an exponent is at least. -/
structure Layout where
  positionalFrom : Int
  positionalBelow : Int
  exponentWidth : Nat

def padded (width n : Nat) : List Char :=
  let digits := Nat.toDigits 10 n
  List.replicate (width - digits.length) '0' ++ digits

/-- The digits of the coefficient without the zeros at its end. -/
def significantDigits (d : Decimal) : List Char :=
  ((Nat.toDigits 10 d.coefficient).reverse.dropWhile (· = '0')).reverse

/-- The place of the first digit: the number lies between `10 ^ magnitude` and ten times that. -/
def magnitude (d : Decimal) : Int := d.exponent + (Nat.toDigits 10 d.coefficient).length - 1

def scientific (layout : Layout) (digits : List Char) (magnitude : Int) : List Char :=
  let tail := digits.drop 1
  let sign := if magnitude < 0 then '-' else '+'
  digits.take 1 ++ (if tail = [] then [] else '.' :: tail) ++
    'e' :: sign :: padded layout.exponentWidth magnitude.natAbs

def positional (digits : List Char) (magnitude : Int) : List Char :=
  if magnitude < 0 then
    ['0', '.'] ++ List.replicate (magnitude.natAbs - 1) '0' ++ digits
  else
    let places := magnitude.toNat + 1
    let whole := digits.take places
    let fraction := digits.drop places
    whole ++ List.replicate (places - whole.length) '0' ++
      '.' :: (if fraction = [] then ['0'] else fraction)

def write (layout : Layout) (d : Decimal) : List Char :=
  let digits := d.significantDigits
  if layout.positionalFrom ≤ d.magnitude ∧ d.magnitude < layout.positionalBelow then
    positional digits d.magnitude
  else
    scientific layout digits d.magnitude

end Decimal
end Meristem
