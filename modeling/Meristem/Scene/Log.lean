import Meristem.Outline
import Meristem.Scene.Entity

/-!
Sending a plant to a viewer. A buffer without records clears its path; any other is sent as
points, as arrows in the direction of growth and as poses. Everything that can be wrong with the
columns of a buffer is found before the first entity is sent.
-/

namespace Meristem

/-- A path below another one. -/
def pathBelow (path : Text) (name : String) : Text := path ++ Text.ofString ("/" ++ name)

/-- What was sent, and what stopped it. -/
structure SceneLog where
  entries : List LogEntry
  error : Option SceneError

variable {α : Type} [Scalar α]

/-- The directions stretched by the second component of the scales. A single direction or a
single scale goes with all of the others. -/
def stretched? (directions : List (Vec3 α)) (scales : List (Vec4 α)) : Option (List (Vec3 α)) :=
  let stretch (d : Vec3 α) (s : Vec4 α) : Vec3 α :=
    let v := d.scale s.y
    ⟨Scalar.single v.x, Scalar.single v.y, Scalar.single v.z⟩
  if directions.length = scales.length then some (List.zipWith stretch directions scales)
  else
    match directions, scales with
    | [d], scales => some (scales.map (stretch d))
    | directions, [s] => some (directions.map (stretch · s))
    | _, _ => none

/-- Where arrows start, and how they go. -/
structure Arrows (α : Type) where
  origins : List (Vec3 α)
  vectors : List (Vec3 α)

namespace InstanceBuffer

/-- The columns of a buffer as rows, and the directions of its records. -/
structure Rows (α : Type) where
  positions : List (Vec4 α)
  colors : List (Vec4 α)
  scales : List (Vec4 α)
  rotations : List (Quat α)
  directions : List (Vec3 α)

def rowsOf (b : InstanceBuffer α) : Except SceneError (Rows α) := do
  let positions ← (b.matrix .translate).mapError .shape
  let colors ← (b.matrix .color).mapError .shape
  let scales ← (b.matrix .scale).mapError .shape
  let rotations ← (b.matrix .rotate).mapError .shape
  let some directions := rotations.mapM growthDirection? | .error .zeroRotation
  return { positions, colors, scales, rotations, directions }

/-- The arrows of the records, unless there are more directions than scales or fewer. -/
def Rows.arrows (rows : Rows α) : Except SceneError (Arrows α) :=
  match stretched? rows.directions rows.scales with
  | none => .error (.mismatch rows.directions.length rows.scales.length)
  | some vectors => .ok ⟨rows.positions.map Vec4.xyz, vectors⟩

/-- The radius of a record, in the precision in which it leaves the program. -/
def radiusOf (radius : α) (scale : Vec4 α) : α :=
  Scalar.single (Scalar.single radius * scale.x)

def toPoses (b : InstanceBuffer Float) : Except SceneError Entity := do
  let translations ← (b.matrix .translate).mapError .shape
  let quaternions ← (b.matrix .rotate).mapError .shape
  let scales ← (b.matrix .scale).mapError .shape
  return .poses (translations.map Vec4.xyz) quaternions (scales.map Vec4.xyz)

/-- Sends the records of a buffer. -/
def log (path : Text) (radius : Float) (b : InstanceBuffer Float) : SceneLog :=
  if b.count = 0 then ⟨[(path, .clear true)], none⟩
  else
    match b.rowsOf with
    | .error e => ⟨[], some e⟩
    | .ok rows =>
      let positions := rows.positions.map Vec4.xyz
      let colors := rows.colors.map packedColor
      let points : LogEntry :=
        (pathBelow path "points", .points positions (rows.scales.map (radiusOf radius)) colors)
      match rows.arrows with
      | .error e => ⟨[points], some e⟩
      | .ok arrows =>
        let directions : LogEntry :=
          (pathBelow path "directions", .arrows arrows.vectors arrows.origins colors)
        let poses : LogEntry :=
          (pathBelow path "poses", .poses positions rows.rotations (rows.scales.map Vec4.xyz))
        ⟨[points, directions, poses], none⟩

end InstanceBuffer

namespace SceneLog

/-- Sends more, unless sending has stopped. -/
def andThen (first : SceneLog) (second : SceneLog) : SceneLog :=
  match first.error with
  | some _ => first
  | none => ⟨first.entries ++ second.entries, second.error⟩

end SceneLog

namespace Plant

def statistics {α : Type} (p : Plant α) : Text :=
  .ofString ("symbols: " ++ toString p.symbols.length ++ "\nbranches: " ++
    toString p.branches.count ++ "\nleaves: " ++ toString p.leaves.count)

/-- The path a plant is sent to when none is given. -/
def defaultPath : Text := .ofString "plant"

def branchRadius : Float := 0.1
def leafRadius : Float := 0.2

/-- Sends a plant: its segments, its leaves, and how many there are. -/
def log (p : Plant Float) (path : Text) : SceneLog :=
  (p.branches.log (pathBelow path "branches") branchRadius).andThen
    ((p.leaves.log (pathBelow path "leaves") leafRadius).andThen
      ⟨[(pathBelow path "stats", .text p.statistics false)], none⟩)

end Plant

/-- The path an outline is sent to when none is given. -/
def Outline.defaultPath : Text := .ofString "markdown"

def Outline.entity (marks : List Mark) : Entity := .text (textOf marks) true

end Meristem
