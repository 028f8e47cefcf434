import Meristem.Arity
import Meristem.MachineWord
import Meristem.Rotation
import Meristem.Word

/-!
The records of a plant: where each segment or leaf stands, how it is rotated and scaled, and its
colour. A buffer keeps four columns of numbers, four numbers to a record, so that a column can be
handed on as it is: positions are padded with zero and scales with one.

A buffer that comes from outside may have columns of any length and any count. Its columns turn
into rows only when they fit the count.
-/

namespace Meristem

/-- One record. -/
structure Instance (α : Type) where
  position : Vec3 α
  rotation : Quat α
  scale : Vec3 α
  color : Vec4 α

inductive Column where
  | translate
  | rotate
  | scale
  | color
deriving DecidableEq, Repr

def Column.name : Column → String
  | translate => "translate"
  | rotate => "rotate"
  | scale => "scale"
  | color => "color"

def Column.ofName? (name : Text) : Option Column :=
  [translate, rotate, scale, color].find? fun column => .ofString column.name = name

structure InstanceBuffer (α : Type) where
  translate : Array α
  rotate : Array α
  scale : Array α
  color : Array α
  count : Int

inductive ShapeError where
  /-- A column of `size` numbers does not make `rows` rows of four. A negative number of rows
  leaves their number open. -/
  | misfit (size : Nat) (rows : Int)
  /-- The number of rows does not fit a word. -/
  | tooManyRows
deriving DecidableEq, Repr

def ShapeError.message : ShapeError → String
  | misfit size rows =>
    "cannot reshape array of size " ++ toString size ++ " into shape (" ++
      (if rows < 0 then "" else toString rows ++ ",") ++ "4)"
  | tooManyRows => "Maximum allowed dimension exceeded"

namespace InstanceBuffer

variable {α : Type}

def empty : InstanceBuffer α := ⟨#[], #[], #[], #[], 0⟩

def column (b : InstanceBuffer α) : Column → Array α
  | .translate => b.translate
  | .rotate => b.rotate
  | .scale => b.scale
  | .color => b.color

def pushVec4 (data : Array α) (v : Vec4 α) : Array α :=
  (((data.push v.x).push v.y).push v.z).push v.w

def paddedPosition [Arith α] (v : Vec3 α) : Vec4 α := ⟨v.x, v.y, v.z, 0.0⟩

def paddedScale [Arith α] (v : Vec3 α) : Vec4 α := ⟨v.x, v.y, v.z, 1.0⟩

def append [Arith α] : InstanceBuffer α → Instance α → InstanceBuffer α
  | ⟨translate, rotate, scale, color, count⟩, r =>
    ⟨pushVec4 translate (paddedPosition r.position), pushVec4 rotate r.rotation,
     pushVec4 scale (paddedScale r.scale), pushVec4 color r.color, count + 1⟩

/-- A list cut into rows of four; an incomplete row at its end is dropped. -/
def rowsOfFour : List α → List (Vec4 α)
  | x :: y :: z :: w :: rest => ⟨x, y, z, w⟩ :: rowsOfFour rest
  | _ => []

/-- Cuts a column into `count` rows, or into as many as it has when the count is negative. -/
def rows (count : Int) (data : Array α) : Except ShapeError (List (Vec4 α)) :=
  let fits : Bool :=
    if count < 0 then data.size % 4 = 0 else decide ((data.size : Int) = 4 * count)
  if !fitsSigned count then .error .tooManyRows
  else if fits then .ok (rowsOfFour data.toList)
  else .error (.misfit data.size count)

/-- A column in the precision in which it leaves the program. -/
def flat [Scalar α] (b : InstanceBuffer α) (c : Column) : Array α :=
  (b.column c).map Scalar.single

/-- The rows of a column in the precision in which they leave the program. -/
def matrix [Scalar α] (b : InstanceBuffer α) (c : Column) : Except ShapeError (List (Vec4 α)) :=
  rows b.count (b.flat c)

end InstanceBuffer

/-- A drawn plant: the word it was drawn from, its segments and its leaves. -/
structure Plant (α : Type) where
  symbols : Word
  branches : InstanceBuffer α
  leaves : InstanceBuffer α

def Plant.empty {α : Type} : Plant α := ⟨[], .empty, .empty⟩

end Meristem
