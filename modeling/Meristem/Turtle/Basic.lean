import Meristem.Frame
import Meristem.Noise
import Meristem.Rotation

/-!
The turtle: where the plant grows next and in which direction. The second component of its scale
is the length of a segment; the scale and the depth are kept for the drawing and do not steer it.

An action that finds no direction fails with the turtle as it stands at that moment, which for
the actions made of two rotations may be after the first.
-/

namespace Meristem

structure Turtle (α : Type) where
  position : Vec3 α
  orientation : Vec3 α
  scale : Vec3 α
  depth : Int

namespace Turtle

/-- The widest wobble about each of two world axes, in degrees. -/
def jitterAmplitude {α : Type} [Arith α] : α := 5.0

/-- The widest turn, in degrees. -/
def turnDegrees {α : Type} [Arith α] : α := 30.0

section Arith

variable {α : Type} [Arith α]

def atRoot (position : Vec3 α) : Turtle α where
  position := position
  orientation := Vec3.up
  scale := ⟨2.0, 2.0, 2.0⟩
  depth := 0

def origin : Turtle α := atRoot ⟨0.0, 0.0, 0.0⟩

def move (t : Turtle α) : Turtle α :=
  { t with position := t.position + t.orientation.scale t.scale.y }

end Arith

variable {α : Type} [Scalar α]

/-- The vector `v` turned about `r` through as many radians as `r` is long. -/
def rotated (r v : Vec3 α) : Vec3 α := (Quat.ofRotationVector r).apply v

/-- The direction `v` turned about `axis` by the right-hand rule. -/
def turned? (axis : Vec3 α) (degrees : α) (v : Vec3 α) : Option (Vec3 α) := do
  let axis ← axis.unit?
  (rotated (axis.scale (radians degrees)) v).unit?

def rotate (axis : Vec3 α) (degrees : α) (t : Turtle α) : Except (Turtle α) (Turtle α) :=
  match turned? axis degrees t.orientation with
  | some orientation => .ok { t with orientation }
  | none => .error t

/-- A small wobble about world Z, then world X. -/
def jitter (t : Turtle α) : Except (Turtle α) (Turtle α) := do
  let t ← t.rotate Vec3.worldZ (jitterDegrees t.position jitterAmplitude)
  t.rotate Vec3.worldX (jitterDegrees t.position jitterAmplitude)

/-- A turn about the tangent, then the bitangent, of the frame that looks along the turtle. -/
def turn (sign : α) (t : Turtle α) : Except (Turtle α) (Turtle α) := do
  let some frame := Frame.lookAt? t.position (t.position + t.orientation) | .error t
  let t ← t.rotate frame.tangent (sign * turnDegrees * noise t.position)
  t.rotate frame.bitangent (sign * turnDegrees * noise t.position)

end Turtle
end Meristem
