import Meristem.Binary32

/-!
The numbers a plant is computed with. Everything that grows or draws is written once over
these two classes and run on doubles. They carry operations and no laws: a double satisfies
none of the field axioms, and the results depend on the exact order of the operations.
Statements about exact arithmetic instantiate the same definitions at a field.
-/

namespace Meristem

/-- The arithmetic of weights: enough to share out a unit interval. -/
class Arith (α : Type) extends Add α, Sub α, Mul α, Div α, Neg α, LT α, LE α,
    OfScientific α where
  ltDecidable : DecidableLT α
  leDecidable : DecidableLE α
  abs : α → α

/-- The arithmetic of positions and directions. `single` rounds to the precision in which
instance data leave the program. -/
class Scalar (α : Type) extends Arith α where
  sqrt : α → α
  sin : α → α
  cos : α → α
  floor : α → α
  pi : α
  isFinite : α → Bool
  single : α → α

instance Arith.instDecidableLT {α : Type} [Arith α] : DecidableLT α := Arith.ltDecidable
instance Arith.instDecidableLE {α : Type} [Arith α] : DecidableLE α := Arith.leDecidable

instance : Arith Float where
  ltDecidable := Float.decLt
  leDecidable := Float.decLe
  abs := Float.abs

instance : Scalar Float where
  sqrt := Float.sqrt
  sin := Float.sin
  cos := Float.cos
  floor := Float.floor
  pi := 3.141592653589793
  isFinite := Float.isFinite
  single := Binary32.round

end Meristem
