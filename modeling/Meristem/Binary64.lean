/-!
Doubles taken apart: not a number, an infinity, or a signed integer times a power of two. This
is where questions about the exact value of a double are answered.
-/

namespace Meristem

/-- What a double stands for; a finite one is `mantissa * 2 ^ exponent` with its sign. -/
inductive Binary64 where
  | nan
  | infinite (negative : Bool)
  | finite (negative : Bool) (mantissa : Nat) (exponent : Int)
deriving DecidableEq, Repr

namespace Binary64

/-- The exponent of the smallest doubles. -/
def minExponent : Int := -1074

/-- The mantissa at which the next double below is only half as far away. -/
def leadingBit : Nat := Nat.pow 2 52

def ofFloat (x : Float) : Binary64 :=
  let bits := x.toBits.toNat
  let negative := decide (Nat.pow 2 63 ≤ bits)
  let biased := bits / leadingBit % 2048
  let fraction := bits % leadingBit
  if biased = 2047 then
    if fraction = 0 then .infinite negative else .nan
  else if biased = 0 then
    .finite negative fraction minExponent
  else
    .finite negative (leadingBit + fraction) (biased - 1075)

/-- The integer that a double equals, if it is one. -/
def toInt? : Binary64 → Option Int
  | .nan | .infinite _ => none
  | .finite negative mantissa exponent =>
    let magnitude? :=
      if 0 ≤ exponent then some (mantissa * Nat.pow 2 exponent.toNat)
      else if mantissa % Nat.pow 2 (-exponent).toNat = 0 then
        some (mantissa / Nat.pow 2 (-exponent).toNat)
      else none
    magnitude?.map fun magnitude => if negative then -(magnitude : Int) else magnitude

end Binary64

/-- The nearest double, an even one on a tie; too large integers give an infinity. -/
def floatOfInt (n : Int) : Float :=
  let magnitude := Float.ofScientific n.natAbs false 0
  if n < 0 then -magnitude else magnitude

end Meristem
