import Meristem.Vector

/-!
Taking a list apart into a fixed number of components.
-/

namespace Meristem

/-- A list has another length than the components it should give. -/
inductive ArityError where
  | tooFew (expected found : Nat)
  | tooMany (expected : Nat)
deriving DecidableEq, Repr

def ArityError.message : ArityError → String
  | tooFew expected found =>
    "not enough values to unpack (expected " ++ toString expected ++ ", got " ++
      toString found ++ ")"
  | tooMany expected => "too many values to unpack (expected " ++ toString expected ++ ")"

def arityError (expected found : Nat) : ArityError :=
  if found < expected then .tooFew expected found else .tooMany expected

variable {α : Type}

def Vec3.ofList : List α → Except ArityError (Vec3 α)
  | [x, y, z] => .ok ⟨x, y, z⟩
  | other => .error (arityError 3 other.length)

def Vec4.ofList : List α → Except ArityError (Vec4 α)
  | [x, y, z, w] => .ok ⟨x, y, z, w⟩
  | other => .error (arityError 4 other.length)

end Meristem
