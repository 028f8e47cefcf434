import Meristem.Proofs.Exact.Frame
import Meristem.Proofs.Exact.Turning

/-!
In exact arithmetic a turtle never loses its direction. A rotation makes no direction vanish, and
the frame a turn is made in exists for every direction, upright ones included: a wobble or a turn
of a turtle that has a direction of length one gives it another.
-/

namespace Meristem

namespace Turtle

theorem exists_turned? {axis v : Vec3 ℝ} (haxis : axis.IsUnit) (hv : v.IsUnit) (degrees : ℝ) :
    ∃ direction, turned? axis degrees v = some direction ∧ direction.IsUnit := by
  have hlong : 1 / 10 ^ 9 ≤ axis.norm := by norm_num [Vec3.isUnit_iff_norm.mp haxis]
  exact ⟨_, turned?_eq_spun hlong hv degrees, Vec3.isUnit_spun (Vec3.isUnit_direction hlong) _ hv⟩

variable {t : Turtle ℝ}

theorem exists_rotate {axis : Vec3 ℝ} (haxis : axis.IsUnit) (ht : t.orientation.IsUnit)
    (degrees : ℝ) : ∃ next, t.rotate axis degrees = .ok next ∧ next.orientation.IsUnit := by
  obtain ⟨direction, hturned, hunit⟩ := exists_turned? haxis ht degrees
  refine ⟨{ t with orientation := direction }, ?_, hunit⟩
  simp only [rotate, hturned]

theorem exists_jitter (ht : t.orientation.IsUnit) :
    ∃ next, t.jitter = .ok next ∧ next.orientation.IsUnit := by
  obtain ⟨half, hhalf, hunit⟩ := exists_rotate Vec3.isUnit_worldZ ht
    (jitterDegrees t.position jitterAmplitude)
  obtain ⟨next, hnext, hdone⟩ := exists_rotate Vec3.isUnit_worldX hunit
    (jitterDegrees half.position jitterAmplitude)
  refine ⟨next, ?_, hdone⟩
  simp only [jitter, hhalf, bind, Except.bind]
  exact hnext

theorem exists_turn (ht : t.orientation.IsUnit) (sign : ℝ) :
    ∃ next, t.turn sign = .ok next ∧ next.orientation.IsUnit := by
  obtain ⟨frame, hframe, htangent, hbitangent⟩ := Frame.exists_lookAt? t.position ht
  obtain ⟨half, hhalf, hunit⟩ := exists_rotate htangent ht
    (sign * turnDegrees * noise t.position)
  obtain ⟨next, hnext, hdone⟩ := exists_rotate hbitangent hunit
    (sign * turnDegrees * noise half.position)
  refine ⟨next, ?_, hdone⟩
  simp only [turn, hframe, hhalf, bind, Except.bind]
  exact hnext

end Turtle
end Meristem
