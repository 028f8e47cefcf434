import Meristem.NumberArray.Basic

/-!
Arithmetic on arrays of different shapes. Axes are matched from the innermost one out; an axis of
size one, or one that is not there, is repeated to the size of its partner. A cross product works
on the innermost axis, which holds vectors of the plane or of space; a product sums along the
innermost axis of the left array and the one next to the innermost of the right one.
-/

namespace Meristem.NumberArray

/-- The sizes that two shapes have in common, both from the inside out. -/
def commonSizes? : List Nat → List Nat → Option (List Nat)
  | [], sizes => some sizes
  | sizes, [] => some sizes
  | m :: ms, n :: ns => do
    let size ← if m = n ∨ n = 1 then some m else if m = 1 then some n else none
    return size :: (← commonSizes? ms ns)

def commonShape? (left right : List Nat) : Option (List Nat) :=
  (commonSizes? left.reverse right.reverse).map List.reverse

/-- Repeats entries from one shape to another one of as many axes. -/
def spread : List Nat → List Nat → List Float → List Float
  | size :: sizes, own :: owns, entries =>
    let inner := (parts (entryCount owns) own entries).flatMap (spread sizes owns)
    if own = size then inner else (List.replicate size inner).flatten
  | _, _, entries => entries

def spreadTo (shape : List Nat) (a : NumberArray) : List Float :=
  spread shape (List.replicate (shape.length - a.shape.length) 1 ++ a.shape) a.entries

def zip (f : Float → Float → Float) (a b : NumberArray) : Except ArrayError NumberArray :=
  match commonShape? a.shape b.shape with
  | some shape => .ok ⟨shape, List.zipWith f (a.spreadTo shape) (b.spreadTo shape)⟩
  | none => .error (.noCommonShape a.shape b.shape)

/-- The entries of an array repeated to a shape. Axes of size one around it do not count. -/
def fitTo (places : List Nat) (a : NumberArray) : Except ArrayError (List Float) :=
  let surplus := a.shape.length - places.length
  let shape := a.shape.drop surplus
  if a.shape.take surplus = List.replicate surplus 1 ∧ commonShape? shape places = some places then
    .ok (spreadTo places ⟨shape, a.entries⟩)
  else .error (.misfit a.shape places)

/-- A vector from its components; a vector of the plane has nothing along the third axis. -/
def spaceVector (components : List Float) : Vec3 Float :=
  ⟨components.getD 0 0.0, components.getD 1 0.0, components.getD 2 0.0⟩

/-- The vectors along the innermost axis, repeated to as many as `outer` tells. -/
def vectors (outer : List Nat) (a : NumberArray) : List (Vec3 Float) :=
  let size := a.shape.getLastD 1
  (parts size (entryCount outer) (a.spreadTo (outer ++ [size]))).map spaceVector

/-- The cross products of vectors; of two vectors of the plane only the third component. -/
def cross (a b : NumberArray) : Except ArrayError NumberArray :=
  match a.shape.getLast?, b.shape.getLast? with
  | some m, some n =>
    if m ∉ [2, 3] ∨ n ∉ [2, 3] then .error .notPlaneOrSpace
    else
      match commonShape? a.shape.dropLast b.shape.dropLast with
      | none => .error (.noCommonCount a.shape.dropLast b.shape.dropLast)
      | some outer =>
        let products := List.zipWith Vec3.cross (a.vectors outer) (b.vectors outer)
        if m = 2 ∧ n = 2 then .ok ⟨outer, products.map (·.z)⟩
        else .ok ⟨outer ++ [3], products.flatMap Vec3.toList⟩
  | _, _ => .error .noVector

/-- The columns of the blocks of a right factor: the sizes around the summed axis, and for every
column its numbers. -/
def columns (b : NumberArray) : List Nat × List (List Float) :=
  match b.shape.reverse with
  | width :: height :: outer =>
    (outer.reverse ++ [width],
     (parts (height * width) (entryCount outer) b.entries).flatMap fun block =>
       let rows := parts width height block
       (List.range width).map fun i => rows.map (·.getD i 0.0))
  | _ => ([], [b.entries])

/-- The sums of products; a single number multiplies every number. -/
def product (a b : NumberArray) : Except ArrayError NumberArray :=
  match a.shape.getLast?, b.shape with
  | none, _ | _, [] => zip (· * ·) a b
  | some size, _ =>
    if size ≠ b.shape.getD (innerAxis b.shape) 1 then .error (.notAligned a.shape b.shape)
    else
      let (outer, columns) := b.columns
      let sum (row column : List Float) : Float :=
        (List.zipWith (· * ·) row column).foldl (· + ·) 0.0
      .ok ⟨a.shape.dropLast ++ outer,
        (parts size (entryCount a.shape.dropLast) a.entries).flatMap fun row => columns.map (sum row)⟩

end Meristem.NumberArray
