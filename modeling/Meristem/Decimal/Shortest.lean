import Meristem.Binary64
import Meristem.Decimal.Basic

/-!
Decimals for a positive dyadic number `mantissa * 2 ^ exponent`: rounded to a number of
significant digits, and the shortest one that reads back as the same double.

For the shortest, the reals that round to the double form an interval around it, with its ends
included when the mantissa is even. If a decimal grid has a point in the interval, one of the two
grid points next to the double lies in it, so only these two are tried, on coarser grids first.
-/

namespace Meristem.Decimal

/-- A positive rational number. -/
structure Ratio where
  num : Nat
  den : Nat

namespace Ratio

def ofDyadic (mantissa : Nat) (exponent : Int) : Ratio :=
  ⟨mantissa * Nat.pow 2 exponent.toNat, Nat.pow 2 (-exponent).toNat⟩

/-- The number counted in units of `10 ^ place`. -/
def inUnits (r : Ratio) (place : Int) : Ratio :=
  ⟨r.num * Nat.pow 10 (-place).toNat, r.den * Nat.pow 10 place.toNat⟩

def floor (r : Ratio) : Nat := r.num / r.den

/-- The nearest integer, the even one on a tie. -/
def round (r : Ratio) : Nat :=
  let whole := r.num / r.den
  let twice := 2 * (r.num % r.den)
  if twice < r.den then whole
  else if r.den < twice then whole + 1
  else if whole % 2 = 0 then whole else whole + 1

/-- Steps up to the place of the first digit, from a place not above it. -/
def climb (r : Ratio) : Nat → Int → Int
  | 0, place => place
  | fuel + 1, place =>
    if 10 ≤ (r.inUnits place).floor then r.climb fuel (place + 1) else place

/-- The place of the first digit. The binary logarithm times `log 2 / log 10` is off by at most
one, so starting two below it four steps reach the place. -/
def magnitude (r : Ratio) : Int :=
  let binary : Int := (r.num.log2 : Int) - r.den.log2
  r.climb 4 ((binary * 30103).fdiv 100000 - 2)

end Ratio

/-- The number rounded to `digits` significant digits, ties to the even neighbour. -/
def significant (digits : Nat) (r : Ratio) : Decimal :=
  let place := r.magnitude + 1 - digits
  ⟨(r.inUnits place).round, place⟩

/-- The double `mantissa * 2 ^ exponent` and the ends of its interval, all in quarters of the
last bit. Just above a power of two the lower neighbour is only half as far away. -/
structure Interval where
  low : Nat
  middle : Nat
  high : Nat
  exponent : Int
  closed : Bool

def Interval.around (mantissa : Nat) (exponent : Int) : Interval where
  low :=
    if mantissa = Binary64.leadingBit ∧ Binary64.minExponent < exponent then 4 * mantissa - 1
    else 4 * mantissa - 2
  middle := 4 * mantissa
  high := 4 * mantissa + 2
  exponent := exponent - 2
  closed := mantissa % 2 = 0

def Interval.contains (i : Interval) (place : Int) (count : Nat) : Bool :=
  let low := (Ratio.ofDyadic i.low i.exponent).inUnits place
  let high := (Ratio.ofDyadic i.high i.exponent).inUnits place
  if i.closed then low.num ≤ count * low.den && count * high.den ≤ high.num
  else low.num < count * low.den && count * high.den < high.num

/-- The grid point in the interval on the grid of `10 ^ place`, the nearer one of two. -/
def Interval.onGrid? (i : Interval) (place : Int) : Option Nat :=
  let middle := (Ratio.ofDyadic i.middle i.exponent).inUnits place
  let below := middle.floor
  match i.contains place below, i.contains place (below + 1) with
  | true, true => some middle.round
  | true, false => some below
  | false, true => some (below + 1)
  | false, false => none

/-- The shortest decimal that reads back as the double; no double needs more than 17 digits. -/
def shortest (mantissa : Nat) (exponent : Int) : Decimal :=
  let value := Ratio.ofDyadic mantissa exponent
  let magnitude := value.magnitude
  let interval := Interval.around mantissa exponent
  let candidate? (digits : Nat) : Option Decimal :=
    let place := magnitude + 1 - digits
    (interval.onGrid? place).map (⟨·, place⟩)
  ((List.range' 1 16).findSome? candidate?).getD (significant 17 value)

/-- Doubles are written with a point from `0.0001` to below `10 ^ 16`, and an exponent has at
least two digits. -/
def messageLayout : Layout := ⟨-4, 16, 2⟩

/-- A double as messages show it. -/
def ofFloat (x : Float) : List Char :=
  match Binary64.ofFloat x with
  | .nan => "nan".toList
  | .infinite negative => (if negative then "-inf" else "inf").toList
  | .finite negative mantissa exponent =>
    let sign := if negative then ['-'] else []
    if mantissa = 0 then sign ++ "0.0".toList
    else sign ++ (shortest mantissa exponent).write messageLayout

end Meristem.Decimal
