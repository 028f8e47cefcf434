/-!
Where random draws come from. Growing and drawing use nothing of a generator but its next
number, so they are written over any source and hand back the state it is left in.
-/

namespace Meristem

/-- A state that yields numbers of the unit interval, one below excluded. -/
class DrawSource (σ : Type) (α : outParam Type) where
  next : σ → α × σ

end Meristem
