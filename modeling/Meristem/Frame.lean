import Meristem.Vector

/-!
The right and the true up axis of a viewer who stands at one point and looks at another. Looking
along the given up direction leaves the right axis open; a world axis then stands in for it.
-/

namespace Meristem

/-- Two axes at right angles to each other and to the viewing direction. -/
@[ext] structure Frame (α : Type) where
  tangent : Vec3 α
  bitangent : Vec3 α

variable {α : Type} [Scalar α]

def isUnitSize (x : α) : Bool := decide (Arith.abs (Arith.abs x - 1.0) ≤ (1e-8 + 1e-5 : α))

/-- Whether two unit vectors count as parallel or opposite. -/
def alongSameLine (a b : Vec3 α) : Bool := isUnitSize (a.dot b)

/-- The world axis that a unit vector with this third component is farther from. -/
def standInAxis (z : α) : Vec3 α := if Arith.abs z < 0.9 then Vec3.worldZ else Vec3.worldX

/-- The direction that is held upright: `reference`, or when `forward` runs along it the world
axis that `forward` is farther from. -/
def uprightFor (forward reference : Vec3 α) : Vec3 α :=
  if alongSameLine forward reference then standInAxis forward.z else reference

/-- The frame that looks along the unit vector `forward`. -/
def Frame.along? (forward upright : Vec3 α) : Option (Frame α) := do
  let tangent ← (forward.cross upright).unit?
  some ⟨tangent, tangent.cross forward⟩

/-- The frame that looks from `position` to `target`, or `none` when the points coincide or the
up direction is none. -/
def Frame.lookAt? (position target : Vec3 α) (up : Vec3 α := Vec3.up) : Option (Frame α) := do
  let forward ← (target - position).unit?
  let reference ← up.unit?
  Frame.along? forward (uprightFor forward reference)

end Meristem
