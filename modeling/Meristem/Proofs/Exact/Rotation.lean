import Meristem.Proofs.Exact.Vector
import Meristem.Rotation

/-!
The shortest arc in exact arithmetic. Between two directions of length one it is a quaternion of
length one, and it turns the first onto the second. Only where the two are so nearly opposite that
their sum has no direction it is a half turn instead, about an axis that exists for every direction,
and ends at the exact opposite of the first.
-/

namespace Meristem

/-- A quaternion of length one. -/
def Vec4.IsUnit (q : Vec4 ℝ) : Prop := q.dot q = 1

theorem Vec4.IsUnit.norm_eq {q : Vec4 ℝ} (h : q.IsUnit) : q.norm = 1 := by
  have hnorm : q.norm = √(q.dot q) := rfl
  rw [hnorm, h, Real.sqrt_one]

theorem Vec4.divide_one (q : Vec4 ℝ) : q.divide 1 = q := by simp [divide]

namespace Quat

/-- The matrix of a quaternion multiplies every length by the square of the quaternion's. -/
theorem apply_dot_apply (q : Quat ℝ) (v : Vec3 ℝ) :
    (q.apply v).dot (q.apply v) = q.dot q ^ 2 * v.dot v := by
  simp only [Vec3.dot, Quat.apply, Vec4.dot, Arith.scientific_real]
  norm_num
  ring

/-- The matrix of a quaternion with the vector part `c` and the scalar part `w`. -/
theorem apply_eq (c v : Vec3 ℝ) (w : ℝ) :
    apply ⟨c.x, c.y, c.z, w⟩ v =
      v.scale (w ^ 2 - c.dot c) + (c.cross v).scale (2 * w) + c.scale (2 * c.dot v) := by
  apply Vec3.ext
  · simp only [apply, Vec3.dot, Vec3.scale, Vec3.cross, Arith.scientific_real, Vec3.add_x]
    norm_num
    ring
  · simp only [apply, Vec3.dot, Vec3.scale, Vec3.cross, Arith.scientific_real, Vec3.add_y]
    norm_num
    ring
  · simp only [apply, Vec3.dot, Vec3.scale, Vec3.cross, Arith.scientific_real, Vec3.add_z]
    norm_num
    ring

theorem isUnit_half_turn {axis : Vec3 ℝ} (haxis : axis.IsUnit) :
    Vec4.IsUnit ⟨axis.x, axis.y, axis.z, 0⟩ := by
  have hone : axis.x * axis.x + axis.y * axis.y + axis.z * axis.z = 1 := haxis
  simp only [Vec4.IsUnit, Vec4.dot]
  linear_combination hone

theorem isUnit_twice {a half : Vec3 ℝ} (ha : a.IsUnit) (hhalf : half.IsUnit) :
    Vec4.IsUnit ⟨(a.cross half).x, (a.cross half).y, (a.cross half).z, a.dot half⟩ := by
  have hcross := Vec3.cross_dot_cross a half
  rw [ha.dot_self, hhalf.dot_self, one_mul] at hcross
  simp only [Vec3.dot] at hcross
  simp only [Vec4.IsUnit, Vec4.dot, Vec3.dot]
  linear_combination hcross

/-- A half turn about an axis at right angles to a direction ends at the opposite direction. -/
theorem apply_half_turn {axis v : Vec3 ℝ} (haxis : axis.IsUnit) (hright : axis.dot v = 0) :
    apply ⟨axis.x, axis.y, axis.z, 0⟩ v = v.opposite := by
  rw [apply_eq, haxis.dot_self, hright]
  apply Vec3.ext
  · simp [Vec3.opposite, Vec3.scale]
  · simp [Vec3.opposite, Vec3.scale]
  · simp [Vec3.opposite, Vec3.scale]

/-- The quaternion that goes twice the way from `a` to `half` turns `a` onto the reflection of `a`
at `half`. -/
theorem apply_twice {a half : Vec3 ℝ} (ha : a.IsUnit) (hhalf : half.IsUnit) :
    apply ⟨(a.cross half).x, (a.cross half).y, (a.cross half).z, a.dot half⟩ a =
      half.scale (2 * a.dot half) - a := by
  have hcross : (a.cross half).dot (a.cross half) = 1 - a.dot half ^ 2 := by
    rw [Vec3.cross_dot_cross, ha.dot_self, hhalf.dot_self, one_mul]
  rw [apply_eq, hcross, Vec3.cross_dot_left]
  have hone : a.x * a.x + a.y * a.y + a.z * a.z = 1 := ha
  apply Vec3.ext
  · simp only [Vec3.add_x, Vec3.sub_x, Vec3.scale, Vec3.cross, Vec3.dot]
    linear_combination (2 * (a.x * half.x + a.y * half.y + a.z * half.z) * half.x) * hone
  · simp only [Vec3.add_y, Vec3.sub_y, Vec3.scale, Vec3.cross, Vec3.dot]
    linear_combination (2 * (a.x * half.x + a.y * half.y + a.z * half.z) * half.y) * hone
  · simp only [Vec3.add_z, Vec3.sub_z, Vec3.scale, Vec3.cross, Vec3.dot]
    linear_combination (2 * (a.x * half.x + a.y * half.y + a.z * half.z) * half.z) * hone

theorem halfTurnAxis?_real (a : Vec3 ℝ) :
    halfTurnAxis? a = (if (Vec3.worldX.cross a).norm < 1 / 10 ^ 6 then Vec3.worldY.cross a
      else Vec3.worldX.cross a).unit? := by
  simp only [halfTurnAxis?, Arith.scientific_real, Nat.cast_one]

/-- The axis of a half turn exists for every direction, also along world X. -/
theorem exists_halfTurnAxis? {a : Vec3 ℝ} (ha : a.IsUnit) :
    ∃ axis, halfTurnAxis? a = some axis ∧ axis.IsUnit ∧ axis.dot a = 0 := by
  have hone : a.x * a.x + a.y * a.y + a.z * a.z = 1 := ha
  have hacross : (Vec3.worldX.cross a).dot (Vec3.worldX.cross a) = a.y ^ 2 + a.z ^ 2 := by
    simp [Vec3.cross, Vec3.worldX, Vec3.dot]
    ring
  have hover : (Vec3.worldY.cross a).dot (Vec3.worldY.cross a) = a.x ^ 2 + a.z ^ 2 := by
    simp [Vec3.cross, Vec3.worldY, Vec3.dot]
    ring
  have hsquare := Vec3.norm_sq (Vec3.worldX.cross a)
  have hnonneg := Vec3.norm_nonneg (Vec3.worldX.cross a)
  rw [hacross] at hsquare
  obtain ⟨axis, haxis, hlong, hright⟩ : ∃ axis : Vec3 ℝ, halfTurnAxis? a = axis.unit? ∧
      1 / 10 ^ 18 ≤ axis.dot axis ∧ axis.dot a = 0 := by
    rw [halfTurnAxis?_real]
    split
    · rename_i hshort
      refine ⟨Vec3.worldY.cross a, rfl, ?_, Vec3.cross_dot_right _ _⟩
      rw [hover]
      norm_num at hshort ⊢
      nlinarith [sq_nonneg a.x]
    · rename_i hlong
      refine ⟨Vec3.worldX.cross a, rfl, ?_, Vec3.cross_dot_right _ _⟩
      rw [hacross]
      norm_num at hlong ⊢
      nlinarith
  obtain ⟨hunit, hlength⟩ := Vec3.exists_unit? hlong
  refine ⟨_, haxis.trans hunit, hlength, ?_⟩
  rw [Vec3.divide_dot, hright, zero_div]

theorem between?_of_isUnit {a b : Vec3 ℝ} (ha : a.IsUnit) (hb : b.IsUnit) :
    between? a b = twiceTo? a (a + b) := by
  simp only [between?, ha.unit?, hb.unit?, bind, Option.bind]

/-- Where the sum of two directions is too short, the arc is a half turn. -/
theorem exists_twiceTo?_short {a sum : Vec3 ℝ} (ha : a.IsUnit) (hshort : sum.norm < 1 / 10 ^ 9) :
    ∃ axis : Vec3 ℝ, twiceTo? a sum = some ⟨axis.x, axis.y, axis.z, 0⟩ ∧ axis.IsUnit ∧
      axis.dot a = 0 := by
  obtain ⟨axis, haxis, hunit, hright⟩ := exists_halfTurnAxis? ha
  refine ⟨axis, ?_, hunit, hright⟩
  simp only [twiceTo?, minNorm_real]
  rw [if_pos hshort, haxis]
  simp

/-- Otherwise it goes twice the way to the direction half way between the two. -/
theorem exists_twiceTo?_long {a b : Vec3 ℝ} (ha : a.IsUnit) (hb : b.IsUnit)
    (hlong : 1 / 10 ^ 9 ≤ (a + b).norm) :
    ∃ half : Vec3 ℝ, twiceTo? a (a + b) =
        some ⟨(a.cross half).x, (a.cross half).y, (a.cross half).z, a.dot half⟩ ∧
      half.IsUnit ∧ 2 * a.dot half = (a + b).norm ∧ half.scale (2 * a.dot half) = a + b := by
  have hpos : 0 < (a + b).norm := lt_of_lt_of_le (by norm_num) hlong
  obtain ⟨half, hhalf⟩ : ∃ half, (a + b).divide (a + b).norm = half := ⟨_, rfl⟩
  have hunit : half.IsUnit := hhalf ▸ Vec3.isUnit_divide_norm hpos
  have hlength : 2 * a.dot half = (a + b).norm := by
    have hsquare := Vec3.norm_sq (a + b)
    rw [Vec3.sum_dot_sum ha hb] at hsquare
    rw [← hhalf, Vec3.dot_divide_right, Vec3.dot_add, ha.dot_self, mul_div_assoc', ← hsquare]
    field_simp
  have hquaternion := isUnit_twice ha hunit
  refine ⟨half, ?_, hunit, hlength, ?_⟩
  · simp only [twiceTo?, minNorm_real]
    rw [if_neg (not_lt.mpr hlong), hhalf, hquaternion.norm_eq, Vec4.divide_one]
  · rw [hlength, ← hhalf, Vec3.divide_scale _ hpos.ne']

/-- The shortest arc between two directions exists. It turns the first onto the second, or, if they
are all but opposite, onto its own opposite. -/
theorem exists_between? {a b : Vec3 ℝ} (ha : a.IsUnit) (hb : b.IsUnit) :
    ∃ q, between? a b = some q ∧ q.IsUnit ∧
      ((1 / 10 ^ 9 ≤ (a + b).norm ∧ q.apply a = b) ∨
        ((a + b).norm < 1 / 10 ^ 9 ∧ q.apply a = a.opposite)) := by
  rw [between?_of_isUnit ha hb]
  by_cases hshort : (a + b).norm < 1 / 10 ^ 9
  · obtain ⟨axis, harc, hunit, hright⟩ := exists_twiceTo?_short ha hshort
    exact ⟨_, harc, isUnit_half_turn hunit, Or.inr ⟨hshort, apply_half_turn hunit hright⟩⟩
  · obtain ⟨half, harc, hunit, -, hsum⟩ := exists_twiceTo?_long ha hb (not_lt.mp hshort)
    refine ⟨_, harc, isUnit_twice ha hunit, Or.inl ⟨not_lt.mp hshort, ?_⟩⟩
    rw [apply_twice ha hunit, hsum, Vec3.add_sub_self]

end Quat
end Meristem
