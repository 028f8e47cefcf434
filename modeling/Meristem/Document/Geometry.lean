import Meristem.Document.NumberArray
import Meristem.Frame
import Meristem.Noise
import Meristem.NumberArray.Product
import Meristem.Rotation

/-!
Geometry on coordinates given by documents. A vector is read and scaled to unit length before the
next one is looked at, so the first fault is the one that is reported. Arrays of other shapes are
followed through a construction as far as their shapes allow; what comes out at its end must be
made of single numbers.
-/

namespace Meristem

inductive GeometryError where
  | array (error : ArrayError)
  | noDirection
deriving DecidableEq, Repr

namespace NumberArray

def unit (a : NumberArray) : Except GeometryError NumberArray :=
  match a.unit? with
  | some unit => .ok unit
  | none => .error .noDirection

/-- The shape of the first three rows. -/
def rowShape : List Nat → Except ArrayError (List Nat)
  | rows :: inner => if rows < 3 then .error .missingComponent else .ok inner
  | [] => .error .missingComponent

/-- The only number of the third row. -/
def third (a : NumberArray) : Except ArrayError Float := do
  let _ ← rowShape a.shape
  match (← a.rows)[2]? with
  | none => .error .missingComponent
  | some row =>
    match row.entries with
    | [z] => .ok z
    | entries => .error (.ambiguous entries.length)

/-- The shape of the rotation from `a` to twice the angle to `sum`: three rows of its axis and a
last component. A half turn has an axis at right angles to `a` and the last component zero. -/
def rotationShape (halfTurn : Bool) (a sum : NumberArray) : Except ArrayError (List Nat) := do
  let axis ← if halfTurn then (ofVec3 Vec3.worldX).cross a else a.cross sum
  let row ← rowShape axis.shape
  let last ← if halfTurn then .ok [] else (a.product sum).map NumberArray.shape
  stackedShape [row, row, row, last]

end NumberArray

namespace Document

open NumberArray (ofVec3)

def arrayed {β : Type} (result : Except ArrayError β) : Except GeometryError β :=
  result.mapError .array

def directed {β : Type} : Option β → Except GeometryError β
  | some value => .ok value
  | none => .error .noDirection

def toArray (d : Document) : Except GeometryError NumberArray :=
  arrayed (NumberArray.ofDocument d)

def toUnit (d : Document) : Except GeometryError NumberArray := do (← d.toArray).unit

def unitListOf (d : Document) : Except GeometryError (List Float) := do
  arrayed (← d.toUnit).numbers

def rotationBetween (src dst : Document) : Except GeometryError (Quat Float) := do
  let a ← src.toUnit
  let b ← dst.toUnit
  let sum ← arrayed (a.zip (· + ·) b)
  let halfTurn := decide (listNorm sum.entries < minNorm)
  if (← arrayed (NumberArray.rotationShape halfTurn a sum)) = [4] then
    directed (Quat.twiceTo? (NumberArray.spaceVector a.entries)
      (NumberArray.spaceVector sum.entries))
  else .error (.array .notNumeric)

/-- The tangent and the bitangent of the frame that looks from one point to another. -/
def frameLookingAt (position target : Document) (up : Option Document) :
    Except GeometryError (List Float × List Float) := do
  let target ← target.toArray
  let position ← position.toArray
  let forward ← (← arrayed (target.zip (· - ·) position)).unit
  let reference ←
    match up with
    | some d => d.toUnit
    | none => .ok (ofVec3 Vec3.up)
  let upright ←
    if (← arrayed (forward.product reference)).entries.all isUnitSize then
      (arrayed forward.third).map fun z => ofVec3 (standInAxis z)
    else .ok reference
  let tangent ← (← arrayed (forward.cross upright)).unit
  let bitangent ← arrayed (tangent.cross forward)
  return (← arrayed tangent.numbers, ← arrayed bitangent.numbers)

def factor : Document → Except ArrayError Float
  | .bool b => .ok (if b then 1.0 else 0.0)
  | .int n => .ok (floatOfInt n)
  | .real x => .ok x
  | _ => .error .notNumeric

/-- The noise at a point. Rows of one number have noise only where it is zero for want of a
phase. -/
def noiseAt (d : Document) : Except ArrayError Float := do
  let a ← NumberArray.ofDocument d
  let rows ← a.three
  match rows.x.entries, rows.y.entries, rows.z.entries with
  | [x], [y], [z] =>
    let p : Vec3 Float := ⟨x, y, z⟩
    if a.shape.length = 1 || !(hashWave p).isFinite then .ok (noise p) else .error .notNumeric
  | entries, _, _ => .error (.ambiguous entries.length)

/-- The noise at a point as an angle. The point is looked at before the amplitude. -/
def jitterAt (d amplitude : Document) : Except ArrayError Float := do
  let value ← d.noiseAt
  return spreadNoise value (← amplitude.factor)

end Document
end Meristem
