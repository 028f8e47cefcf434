import Meristem.Vector

/-!
Rotations of space as quaternions: from a rotation vector, as a matrix, and the shortest arc
between two directions.

The quaternion of a rotation vector is not scaled to unit length again, and for small angles it
comes from a truncated series, so its matrix is a rotation only up to a positive factor. Callers
that need a direction take the unit vector of the result.
-/

namespace Meristem

/-- A quaternion, its scalar part last. -/
abbrev Quat (α : Type) := Vec4 α

variable {α : Type} [Scalar α]

def radians (degrees : α) : α := degrees * (Scalar.pi / 180.0)

/-- The axis of `r` turned through as many radians as `r` is long. -/
def Quat.ofRotationVector (r : Vec3 α) : Quat α :=
  let angle := Scalar.sqrt (r.x * r.x + r.y * r.y + r.z * r.z)
  let s :=
    if angle ≤ 1e-3 then
      let square := angle * angle
      0.5 - square / 48.0 + square * square / 3840.0
    else
      Scalar.sin (angle / 2.0) / angle
  ⟨s * r.x, s * r.y, s * r.z, Scalar.cos (angle / 2.0)⟩

/-- Applies the matrix of `q`, which is a rotation when `q` has unit length. -/
def Quat.apply (q : Quat α) (v : Vec3 α) : Vec3 α :=
  let x2 := q.x * q.x
  let y2 := q.y * q.y
  let z2 := q.z * q.z
  let w2 := q.w * q.w
  let xy := q.x * q.y
  let zw := q.z * q.w
  let xz := q.x * q.z
  let yw := q.y * q.w
  let yz := q.y * q.z
  let xw := q.x * q.w
  ⟨Vec3.dot ⟨x2 - y2 - z2 + w2, 2.0 * (xy - zw), 2.0 * (xz + yw)⟩ v,
   Vec3.dot ⟨2.0 * (xy + zw), -x2 + y2 - z2 + w2, 2.0 * (yz - xw)⟩ v,
   Vec3.dot ⟨2.0 * (xz - yw), 2.0 * (yz + xw), -x2 - y2 + z2 + w2⟩ v⟩

/-- An axis at right angles to the unit vector `a`, for a half turn. -/
def halfTurnAxis? (a : Vec3 α) : Option (Vec3 α) :=
  let first := Vec3.worldX.cross a
  let axis := if first.norm < 1e-6 then Vec3.worldY.cross a else first
  axis.unit?

/-- The rotation through twice the angle from the unit vector `a` to `sum`. A sum of opposite
directions leaves the axis open and gives a half turn about any axis at right angles. -/
def Quat.twiceTo? (a sum : Vec3 α) : Option (Quat α) := do
  if sum.norm < minNorm then
    let axis ← halfTurnAxis? a
    some ⟨axis.x, axis.y, axis.z, 0.0⟩
  else
    let half := sum.divide sum.norm
    let c := a.cross half
    let q : Quat α := ⟨c.x, c.y, c.z, a.dot half⟩
    some (q.divide q.norm)

/-- The shortest rotation that turns `src` onto `dst`. Twice the angle from the first direction
to the sum of both lands on the second. -/
def Quat.between? (src dst : Vec3 α) : Option (Quat α) := do
  let a ← src.unit?
  let b ← dst.unit?
  Quat.twiceTo? a (a + b)

end Meristem
