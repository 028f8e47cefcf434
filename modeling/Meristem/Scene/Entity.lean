import Meristem.Binary64
import Meristem.Decimal.Shortest
import Meristem.Instances.Buffer
import Meristem.Word

/-!
What a viewer is sent: entities at paths, and why sending may stop.
-/

namespace Meristem

inductive Entity where
  | clear (recursive : Bool)
  | points (positions : List (Vec3 Float)) (radii : List Float) (colors : List Nat)
  | arrows (vectors origins : List (Vec3 Float)) (colors : List Nat)
  | poses (translations : List (Vec3 Float)) (quaternions : List (Quat Float))
      (scales : List (Vec3 Float))
  | text (content : Text) (markdown : Bool)

abbrev LogEntry := Text × Entity

inductive SceneError where
  | shape (error : ShapeError)
  | zeroRotation
  /-- Directions and scales of different number cannot be matched. -/
  | mismatch (directions scales : Nat)
deriving DecidableEq, Repr

def SceneError.message : SceneError → String
  | shape error => error.message
  | zeroRotation => "Found zero norm quaternions in \x60quat\x60."
  | mismatch directions scales =>
    "operands could not be broadcast together with shapes (" ++ toString directions ++ ",3) (" ++
      toString scales ++ ",1) "

/-- A channel as a byte: 255 times as much, rounded to an integer, the even one on a tie. Of what
does not fit a byte the low eight bits stay. -/
def channelByte (x : Float) : Nat :=
  match Binary64.ofFloat (Scalar.single (x * 255.0)) with
  | .nan | .infinite _ => 0
  | .finite negative mantissa exponent =>
    let rounded := (Decimal.Ratio.ofDyadic mantissa exponent).round
    if Nat.pow 2 31 ≤ rounded then 0
    else if negative then (256 - rounded % 256) % 256 else rounded % 256

/-- Red, green, blue and opacity, a byte each, red the highest. -/
def packedColor (c : Vec4 Float) : Nat :=
  ((channelByte c.x * 256 + channelByte c.y) * 256 + channelByte c.z) * 256 + channelByte c.w

/-- The rotation scaled to unit length, applied to the way up. -/
def growthDirection? {α : Type} [Scalar α] (q : Quat α) : Option (Vec3 α) :=
  let n := Scalar.sqrt (q.x * q.x + q.y * q.y + q.z * q.z + q.w * q.w)
  if 0.0 < n then some (Quat.apply (q.divide n) Vec3.up) else none

end Meristem
