import Meristem.Vector

/-!
A reproducible hash of a point in space. It is not a smooth field: neighbouring points may map to
unrelated values, and one different bit in a position gives another plant.
-/

namespace Meristem

variable {α : Type} [Scalar α]

/-- The largest double below one. -/
def belowOne : α := 1.0 - 1.0 / 9007199254740992.0

/-- A wave along the point's phase, so high that its fraction is a hash of the point. It is not
finite when the phase overflowed. -/
def hashWave (p : Vec3 α) : α :=
  let phase := p.x * 987.654 + p.y * 123.456 + p.z * 531.975
  Arith.abs (Scalar.sin phase * 85734.3545)

/-- Maps a point to a value from zero up to, but not including, one. A phase that overflowed has
nothing left to hash and gives zero; a fraction that rounds up to one is taken back below it. -/
def noise (p : Vec3 α) : α :=
  let s := hashWave p
  if Scalar.isFinite s then
    let fraction := s - Scalar.floor s
    if belowOne < fraction then belowOne else fraction
  else
    0.0

/-- A value of the unit interval spread over the angles from `-amplitude` to `amplitude`. -/
def spreadNoise (value amplitude : α) : α := 2.0 * amplitude * value - amplitude

def jitterDegrees (p : Vec3 α) (amplitude : α) : α := spreadNoise (noise p) amplitude

end Meristem
