import Meristem.Scalar

/-!
Vectors in space and four-component records, with the operations a turtle needs. Sums run from
left to right. A direction is a vector scaled to unit length; it exists only for a vector whose
length is finite and not below `minNorm`.
-/

namespace Meristem

/-- A point or direction in space; the second component points up. -/
@[ext] structure Vec3 (α : Type) where
  x : α
  y : α
  z : α

/-- Four components: a quaternion with its scalar part last, a colour with its opacity last, or
a padded vector. -/
@[ext] structure Vec4 (α : Type) where
  x : α
  y : α
  z : α
  w : α

/-- Vectors shorter than this have no direction. -/
def minNorm {α : Type} [Arith α] : α := 1e-9

namespace Vec3

variable {α : Type}

def toList (v : Vec3 α) : List α := [v.x, v.y, v.z]

section Arith

variable [Arith α]

instance : Add (Vec3 α) := ⟨fun a b => ⟨a.x + b.x, a.y + b.y, a.z + b.z⟩⟩
instance : Sub (Vec3 α) := ⟨fun a b => ⟨a.x - b.x, a.y - b.y, a.z - b.z⟩⟩

def scale (v : Vec3 α) (s : α) : Vec3 α := ⟨v.x * s, v.y * s, v.z * s⟩

def divide (v : Vec3 α) (s : α) : Vec3 α := ⟨v.x / s, v.y / s, v.z / s⟩

def dot (a b : Vec3 α) : α := a.x * b.x + a.y * b.y + a.z * b.z

def cross (a b : Vec3 α) : Vec3 α :=
  ⟨a.y * b.z - a.z * b.y, a.z * b.x - a.x * b.z, a.x * b.y - a.y * b.x⟩

def worldX : Vec3 α := ⟨1.0, 0.0, 0.0⟩
def worldY : Vec3 α := ⟨0.0, 1.0, 0.0⟩
def worldZ : Vec3 α := ⟨0.0, 0.0, 1.0⟩

/-- The way plants grow. -/
def up : Vec3 α := worldY

end Arith

variable [Scalar α]

def norm (v : Vec3 α) : α := Scalar.sqrt (v.dot v)

/-- The unit vector along `v`, or `none` when `v` has no direction. -/
def unit? (v : Vec3 α) : Option (Vec3 α) :=
  let n := v.norm
  if Scalar.isFinite n = false ∨ n < minNorm then none else some (v.divide n)

end Vec3

namespace Vec4

variable {α : Type}

def toList (v : Vec4 α) : List α := [v.x, v.y, v.z, v.w]

/-- The first three components. -/
def xyz (v : Vec4 α) : Vec3 α := ⟨v.x, v.y, v.z⟩

def map {β : Type} (f : α → β) (v : Vec4 α) : Vec4 β := ⟨f v.x, f v.y, f v.z, f v.w⟩

section Arith

variable [Arith α]

def divide (v : Vec4 α) (s : α) : Vec4 α := ⟨v.x / s, v.y / s, v.z / s, v.w / s⟩

def dot (a b : Vec4 α) : α := a.x * b.x + a.y * b.y + a.z * b.z + a.w * b.w

end Arith

def norm [Scalar α] (v : Vec4 α) : α := Scalar.sqrt (v.dot v)

end Vec4

def listNorm {α : Type} [Scalar α] (xs : List α) : α :=
  Scalar.sqrt (xs.foldl (fun sum x => sum + x * x) 0.0)

def unitList? {α : Type} [Scalar α] (xs : List α) : Option (List α) :=
  let n := listNorm xs
  if Scalar.isFinite n = false ∨ n < minNorm then none else some (xs.map (· / n))

end Meristem
