import Meristem.Proofs.Drawing.Steady
import Meristem.Proofs.Exact.Drawing

/-!
In exact arithmetic no change takes a direction from length one, and no drawing of any word fails
for want of a direction: the difference between a turtle's place and the place one step on is the
step, wherever the turtle stands.
-/

namespace Meristem

namespace Turtle

variable {t next : Turtle ℝ}

/-- No single change takes a direction from length one, not even for a moment. -/
theorem Edit.isUnit (h : t.Edit next) (ht : t.orientation.IsUnit) : next.orientation.IsUnit := by
  cases h with
  | rotate h =>
      obtain ⟨direction, hturned, rfl⟩ := rotate_eq_ok h
      obtain ⟨axis, -, hunit⟩ := Option.bind_eq_some_iff.mp hturned
      exact Vec3.isUnit_of_unit? hunit
  | lift => exact lifted_isUnit ht
  | shrink => exact ht
  | move => exact ht
  | thin => exact ht
  | deepen => exact ht

theorem Edits.isUnit (h : t.Edits next) (ht : t.orientation.IsUnit) :
    next.orientation.IsUnit := by
  apply h.preserves (P := fun t => t.orientation.IsUnit) _ ht
  intro s u hedit hs
  exact hedit.isUnit hs

theorem steady_isUnit : Steady fun t : Turtle ℝ => t.orientation.IsUnit where
  edit := fun _ _ hedit ht => hedit.isUnit ht
  jitter := by
    intro t ht
    obtain ⟨next, hnext, -⟩ := t.exists_jitter ht
    exact ⟨next, hnext⟩
  quaternion := fun _ ht => exists_quaternion? ht

end Turtle

/-- From a root whose direction has length one no drawing loses its direction. -/
theorem Pen.draw_ne_noDirection {σ : Type} [DrawSource σ ℝ] (pen : Pen ℝ) (symbols : Word)
    {root : Turtle ℝ} (hroot : root.orientation.IsUnit) (source : σ) :
    (pen.draw symbols root source).1 ≠ .error .noDirection := by
  intro h
  obtain ⟨i, t, positive, hcomes, hturned⟩ :=
    (draw_noDirection_iff Turtle.steady_isUnit hroot).mp h
  obtain ⟨next, hnext, -⟩ := Turtle.exists_turned (hcomes.edits.isUnit hroot)
    (if positive then 1.0 else -1.0)
  simp only [hnext] at hturned
  simp at hturned

end Meristem
