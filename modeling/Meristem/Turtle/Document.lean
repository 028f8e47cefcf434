import Meristem.Document.Geometry
import Meristem.Document.Number
import Meristem.MachineWord
import Meristem.Turtle.Basic

/-!
Turtles given by documents, and steering them by documents. Each vector of a new turtle must be an
array of three numbers. A value that is no number at all ends the reading at once; every other
fault is a problem at its field.
-/

namespace Meristem

/-- Why no value could be made from a document. -/
inductive Rejection where
  | problems (list : List Problem)
  | notNumeric
  | array (error : ArrayError)
deriving DecidableEq, Repr

/-- Why a turtle could not be steered. -/
inductive SteeringError where
  | geometry (error : GeometryError)
  /-- Several rotations at once leave no single direction. -/
  | manyDirections
deriving DecidableEq, Repr

namespace Turtle

/-- Reads a vector; `none` when it is not made of numbers. -/
def vector? (d : Document) : Option (Checked (Vec3 Float)) :=
  match NumberArray.ofDocument d with
  | .error .notNumeric => none
  | .error (.ragged _) => some (Checked.fail (.refused none))
  | .error e => some (Checked.fail (.refused e.message?))
  | .ok array =>
    match array.vec3? with
    | some v => some (.ok v)
    | none => some (Checked.fail (.refused
        (some ("Expected a 3-vector, got shape " ++ shapeText array.shape))))

/-- The vector of a field, or its default when the field is absent. -/
def vectorField? (fields : Document.Entries) (name : String) (default : Vec3 Float) :
    Option (Checked (Vec3 Float)) :=
  match Document.field? fields name with
  | none => some (.ok default)
  | some d => (vector? d).map (·.under (.key name))

def depthField (fields : Document.Entries) : Checked Int :=
  match Document.field? fields "depth" with
  | none => .ok 0
  | some d => (d.asIntAtLeast 0).under (.key "depth")

def ofFields (fields : Document.Entries) : Except Rejection (Turtle Float) :=
  let read : Option (Checked (Turtle Float)) := do
    let position ← vectorField? fields "position" origin.position
    let orientation ← vectorField? fields "orientation" origin.orientation
    let scale ← vectorField? fields "scale" origin.scale
    some (((((Checked.supply (.ok Turtle.mk) position).supply orientation).supply scale)).supply
      (depthField fields))
  match read with
  | none => .error .notNumeric
  | some (.error problems) => .error (.problems problems)
  | some (.ok turtle) => .ok turtle

/-- A turtle at a root position. Here an unreadable position is an error of its own, and only a
wrong shape is a problem at the field. -/
def atRootOf (position : Document) : Except Rejection (Turtle Float) :=
  match NumberArray.ofDocument position with
  | .error e => .error (.array e)
  | .ok _ => ofFields [(.text (.ofString "position"), position)]

/-- A turtle at the only root position that is given, or at the origin when there is none. -/
def atRootOfAll (positions : Document) : Except Rejection (Turtle Float) :=
  match positions.items? with
  | some [] => .ok origin
  | some [position] => atRootOf position
  | _ => .error .notNumeric

/-- One degree in radians, rounded to half precision. -/
def halfPrecisionDegree : Float := 0.0174560546875

/-- An angle in degrees. An integer must fit a word with or without a sign. -/
def degrees : Document → Except ArrayError Float
  | .int n => if fitsSigned n || fitsUnsigned n then .ok (floatOfInt n) else .error .notNumeric
  | d => d.factor

/-- An angle or an array of angles, in radians. Where all of them are truth values, they have only
half the precision. -/
def angles (d : Document) : Except ArrayError NumberArray := do
  let shape ← d.shape
  let truths := d.leaves.filterMap fun
    | .bool b => some (if b then halfPrecisionDegree else 0.0)
    | _ => none
  if truths.length = d.leaves.length then return ⟨shape, truths⟩
  else return ⟨shape, (← d.leaves.mapM degrees).map radians⟩

def rotateBy (axis angle : Document) (t : Turtle Float) : Except SteeringError (Turtle Float) := do
  let axis ← axis.toUnit.mapError .geometry
  let r ← ((angles angle >>= axis.zip (· * ·)).mapError .array).mapError .geometry
  match r.vec3? with
  | some r =>
    match (rotated r t.orientation).unit? with
    | some orientation => return { t with orientation }
    | none => .error (.geometry .noDirection)
  | none =>
    if r.shape.getLast? = some 3 then
      let outer := r.shape.dropLast
      let directions := (r.vectors outer).flatMap fun r => (rotated r t.orientation).toList
      if (unitList? directions).isSome then .error .manyDirections
      else .error (.geometry .noDirection)
    else .error (.geometry (.array (.notRotations r.shape)))

/-- Turns the turtle by a sign, which may be any number. The turtle must look somewhere before the
sign is read. A failed turn leaves the turtle as it stands at that moment. -/
def turnBy (sign : Document) (t : Turtle Float) :
    Except (GeometryError × Turtle Float) (Turtle Float) :=
  match Frame.lookAt? t.position (t.position + t.orientation), sign.factor with
  | none, _ => .error (.noDirection, t)
  | some _, .error e => .error (.array e, t)
  | some _, .ok sign => (t.turn sign).mapError (.noDirection, ·)

/-- The depth of a turtle that is steered. It is an integer until a real is added. -/
inductive Depth where
  | whole (n : Int)
  | real (x : Float)

/-- Adds a number, without any check of the result. -/
def Depth.plus? : Depth → Document → Option Depth
  | whole m, .int n => some (whole (m + n))
  | whole m, .bool b => some (whole (m + if b then 1 else 0))
  | whole m, .real y => some (real (floatOfInt m + y))
  | real x, d => d.factor.toOption.map fun y => real (x + y)
  | whole _, _ => none

/-- A turtle under way. Its depth leaves what turtles have as soon as a real is added, and plays no
part in the steering. -/
structure Steered where
  turtle : Turtle Float
  depth : Depth

def Steered.start (t : Turtle Float) : Steered := ⟨t, .whole t.depth⟩

/-- The vectors of a turtle. -/
inductive Part where
  | position
  | orientation
  | scale
deriving DecidableEq, Repr

def Part.ofName? (name : Text) : Option Part :=
  if name = .ofString "position" then some .position
  else if name = .ofString "orientation" then some .orientation
  else if name = .ofString "scale" then some .scale
  else none

/-- Replaces a component; a negative index counts from the end. -/
def withComponent (index : Int) (x : Float) (v : Vec3 Float) : Except ArrayError (Vec3 Float) :=
  match if index < 0 then index + 3 else index with
  | 0 => .ok { v with x := x }
  | 1 => .ok { v with y := x }
  | 2 => .ok { v with z := x }
  | _ => .error .missingComponent

/-- The components that an index other than a number selects, and the shape of the selection. A
truth value, or an absent index, selects all of them or none as a row of their own. A list selects
the components it numbers, or those it marks as true. -/
def selection : Document → Except ArrayError (List Nat × List Int)
  | .null | .bool true => .ok ([1, 3], [0, 1, 2])
  | .bool false => .ok ([0, 3], [])
  | .list [.bool x, .bool y, .bool z] =>
    let marked := (([x, y, z].zip [0, 1, 2]).filter (·.1)).map (·.2)
    .ok ([marked.length], marked)
  | d => do
    let shape ← d.shape
    let numbers ← d.leaves.mapM fun
      | .int n => .ok n
      | _ => .error .missingComponent
    return (shape, numbers)

/-- The change of a vector that puts a value at an index. -/
def change (index value : Document) (v : Vec3 Float) : Except ArrayError (Vec3 Float) :=
  match index with
  | .int n => do withComponent n (← value.toNumber) v
  | _ => do
    let (shape, places) ← selection index
    let values ← (← NumberArray.ofDocument value).fitTo shape
    (places.zip values).foldlM (fun v (place, x) => withComponent place x v) v

/-- Sets components of a vector as they are given, without any check of the result. -/
def assign (part : Part) (index value : Document) (t : Turtle Float) :
    Except ArrayError (Turtle Float) := do
  let change := change index value
  match part with
  | .position => return { t with position := ← change t.position }
  | .orientation => return { t with orientation := ← change t.orientation }
  | .scale => return { t with scale := ← change t.scale }

end Turtle
end Meristem
