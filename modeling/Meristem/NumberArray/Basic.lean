import Meristem.Arity
import Meristem.Text.Quoted

/-!
Numbers laid out along any number of axes: a shape and the numbers row by row. An array without
axes is a single number. Outside data may have any shape; the rest of the program works on arrays
of three or four numbers.
-/

namespace Meristem

structure NumberArray where
  /-- The sizes of the axes from the outside in. -/
  shape : List Nat
  entries : List Float

/-- Why a document is no array of numbers, or not one that an operation can use. -/
inductive ArrayError where
  | unreadable (text : Text)
  | ragged (shape : List Nat)
  | tooDeep
  /-- A list in the place of a single number. -/
  | nested
  | notNumeric
  | arity (error : ArityError)
  | noCommonShape (left right : List Nat)
  /-- Values that do not fit the places they are put in. -/
  | misfit (values places : List Nat)
  /-- Two arrays of vectors without a common number of vectors. -/
  | noCommonCount (left right : List Nat)
  /-- A single number in a cross product. -/
  | noVector
  /-- A cross product of vectors of other than two or three components. -/
  | notPlaneOrSpace
  /-- A product along axes of different sizes. -/
  | notAligned (left right : List Nat)
  /-- None or several numbers where a single one decides. -/
  | ambiguous (size : Nat)
  | notRotations (shape : List Nat)
  | missingComponent
deriving DecidableEq, Repr

/-- A shape as messages show it, with a separator between sizes; one size is followed by a
comma. -/
def joinedShape (separator : String) : List Nat → String
  | [size] => "(" ++ toString size ++ ",)"
  | sizes => "(" ++ String.intercalate separator (sizes.map toString) ++ ")"

def shapeText (shape : List Nat) : String := joinedShape ", " shape

/-- A shape in messages that leave no blanks in it. -/
def denseShapeText (shape : List Nat) : String := joinedShape "," shape

namespace NumberArray

/-- The most axes that an array has. -/
def maxAxes : Nat := 64

def entryCount (shape : List Nat) : Nat := shape.foldr (· * ·) 1

/-- The axis that a product with an array from the left runs along. -/
def innerAxis (shape : List Nat) : Nat := if shape.length ≤ 1 then 0 else shape.length - 2

/-- What a shape is along an axis, as messages show it. -/
def axisText (shape : List Nat) (axis : Nat) : String :=
  toString (shape.getD axis 1) ++ " (dim " ++ toString axis ++ ")"

end NumberArray

/-- The wording, where an error has one. -/
def ArrayError.message? : ArrayError → Option String
  | unreadable text => some ("could not convert string to float: " ++ Text.quoted text)
  | ragged shape =>
    some ("setting an array element with a sequence. The requested array has an inhomogeneous " ++
      "shape after " ++ toString shape.length ++ " dimensions. The detected shape was " ++
      shapeText shape ++ " + inhomogeneous part.")
  | tooDeep =>
    some ("setting an array element with a sequence. The requested array would exceed the " ++
      "maximum number of dimension of " ++ toString NumberArray.maxAxes ++ ".")
  | nested => some "setting an array element with a sequence."
  | notNumeric => none
  | arity error => some error.message
  | noCommonShape left right =>
    some ("operands could not be broadcast together with shapes " ++ denseShapeText left ++ " " ++
      denseShapeText right ++ " ")
  | misfit values places =>
    some ("shape mismatch: value array of shape " ++ denseShapeText values ++
      " could not be broadcast to indexing result of shape " ++ denseShapeText places)
  | noCommonCount left right =>
    some ("shape mismatch: objects cannot be broadcast to a single shape.  Mismatch is between " ++
      "arg 0 with shape " ++ shapeText left ++ " and arg 1 with shape " ++ shapeText right ++ ".")
  | noVector => some "At least one array has zero dimension"
  | notPlaneOrSpace =>
    some "incompatible dimensions for cross product\n(dimension must be 2 or 3)"
  | notAligned left right =>
    some ("shapes " ++ denseShapeText left ++ " and " ++ denseShapeText right ++ " not aligned: " ++
      NumberArray.axisText left (left.length - 1) ++ " != " ++
      NumberArray.axisText right (NumberArray.innerAxis right))
  | ambiguous 0 =>
    some ("The truth value of an empty array is ambiguous. Use \x60array.size > 0\x60 to check " ++
      "that an array is not empty.")
  | ambiguous _ =>
    some ("The truth value of an array with more than one element is ambiguous. " ++
      "Use a.any() or a.all()")
  | notRotations shape =>
    some ("Expected \x60rot_vec\x60 to have shape " ++
      (if shape.length ≤ 2 then "(3,) or (N, 3)" else "(..., 3)") ++ ", got " ++ shapeText shape)
  | missingComponent => none

namespace NumberArray

def ofVec3 (v : Vec3 Float) : NumberArray := ⟨[3], v.toList⟩

def parts (size : Nat) : Nat → List Float → List (List Float)
  | 0, _ => []
  | count + 1, entries => entries.take size :: parts size count (entries.drop size)

/-- The rows, which a single number has not. -/
def rows (a : NumberArray) : Except ArrayError (List NumberArray) :=
  match a.shape with
  | [] => .error .notNumeric
  | count :: inner => .ok ((parts (entryCount inner) count a.entries).map (⟨inner, ·⟩))

/-- The number of an array without axes. -/
def toNumber (a : NumberArray) : Except ArrayError Float :=
  match a with
  | ⟨[], [x]⟩ => .ok x
  | _ => .error .notNumeric

def numbers (a : NumberArray) : Except ArrayError (List Float) :=
  if a.shape.length = 1 then .ok a.entries else .error .notNumeric

def vec3? (a : NumberArray) : Option (Vec3 Float) :=
  match a with
  | ⟨[3], [x, y, z]⟩ => some ⟨x, y, z⟩
  | _ => none

def three (a : NumberArray) : Except ArrayError (Vec3 NumberArray) := do
  (Vec3.ofList (← a.rows)).mapError .arity

def four (a : NumberArray) : Except ArrayError (Vec4 NumberArray) := do
  (Vec4.ofList (← a.rows)).mapError .arity

/-- The array with all its numbers scaled to unit length together. -/
def unit? (a : NumberArray) : Option NumberArray :=
  (unitList? a.entries).map (⟨a.shape, ·⟩)

end NumberArray
end Meristem
