import Mathlib.Analysis.Calculus.MeanValue
import Mathlib.Analysis.SpecialFunctions.Trigonometric.ArctanDeriv
import Mathlib.Analysis.SpecialFunctions.Trigonometric.Bounds
import Meristem.Proofs.Exact.Rotation
import Meristem.Turtle.Basic

/-!
Turning a direction about an axis in exact arithmetic. For small angles the quaternion comes from a
series and is not of length one, so its matrix also stretches; the unit vector of the result takes
the stretching away again. What is left is a rotation about the axis, through the angle asked for or,
for small angles, through one that is off by no more than 1e-17. All that a turtle's rotation keeps
follows from that.
-/

namespace Meristem

namespace Vec3

/-- The vector `v` turned about the unit vector `k` by the right-hand rule. -/
noncomputable def spun (k : Vec3 ℝ) (angle : ℝ) (v : Vec3 ℝ) : Vec3 ℝ :=
  v.scale (Real.cos angle) + (k.cross v).scale (Real.sin angle) +
    k.scale ((1 - Real.cos angle) * k.dot v)

variable {k : Vec3 ℝ} (hk : k.IsUnit)

include hk

theorem dot_spun (angle : ℝ) (v : Vec3 ℝ) : (spun k angle v).dot k = v.dot k := by
  have hone : k.x * k.x + k.y * k.y + k.z * k.z = 1 := hk
  simp only [spun, dot, add_x, add_y, add_z, scale, cross]
  linear_combination
    ((1 - Real.cos angle) * (k.x * v.x + k.y * v.y + k.z * v.z)) * hone

/-- Lengths and angles are kept. -/
theorem spun_dot_spun (angle : ℝ) (u v : Vec3 ℝ) :
    (spun k angle u).dot (spun k angle v) = u.dot v := by
  have hone : k.x * k.x + k.y * k.y + k.z * k.z = 1 := hk
  have hcircle := Real.sin_sq_add_cos_sq angle
  simp only [spun, dot, add_x, add_y, add_z, scale, cross]
  linear_combination
    (u.x * v.x + u.y * v.y + u.z * v.z -
      (k.x * u.x + k.y * u.y + k.z * u.z) * (k.x * v.x + k.y * v.y + k.z * v.z)) * hcircle +
    (Real.sin angle ^ 2 * (u.x * v.x + u.y * v.y + u.z * v.z) +
      (1 - Real.cos angle) ^ 2 *
        ((k.x * u.x + k.y * u.y + k.z * u.z) * (k.x * v.x + k.y * v.y + k.z * v.z))) * hone

theorem isUnit_spun (angle : ℝ) {v : Vec3 ℝ} (hv : v.IsUnit) : (spun k angle v).IsUnit :=
  (spun_dot_spun hk angle v v).trans hv

/-- Turning twice about one axis adds the angles. -/
theorem spun_spun (α β : ℝ) (v : Vec3 ℝ) : spun k α (spun k β v) = spun k (α + β) v := by
  have hone : k.x * k.x + k.y * k.y + k.z * k.z = 1 := hk
  apply Vec3.ext
  · simp only [spun, dot, add_x, add_y, add_z, scale, cross, Real.cos_add, Real.sin_add]
    linear_combination (-(Real.sin α * Real.sin β * v.x) + (1 - Real.cos α) * (1 - Real.cos β) *
      (k.x * v.x + k.y * v.y + k.z * v.z) * k.x) * hone
  · simp only [spun, dot, add_x, add_y, add_z, scale, cross, Real.cos_add, Real.sin_add]
    linear_combination (-(Real.sin α * Real.sin β * v.y) + (1 - Real.cos α) * (1 - Real.cos β) *
      (k.x * v.x + k.y * v.y + k.z * v.z) * k.y) * hone
  · simp only [spun, dot, add_x, add_y, add_z, scale, cross, Real.cos_add, Real.sin_add]
    linear_combination (-(Real.sin α * Real.sin β * v.z) + (1 - Real.cos α) * (1 - Real.cos β) *
      (k.x * v.x + k.y * v.y + k.z * v.z) * k.z) * hone

omit hk

theorem spun_zero (k v : Vec3 ℝ) : spun k 0 v = v := by
  apply Vec3.ext
  · simp [spun, scale]
  · simp [spun, scale]
  · simp [spun, scale]

theorem spun_back (hk : k.IsUnit) (angle : ℝ) (v : Vec3 ℝ) :
    spun k (-angle) (spun k angle v) = v := by
  rw [spun_spun hk, neg_add_cancel, spun_zero]

end Vec3

theorem abs_arctan_sub_le (x y : ℝ) : |Real.arctan x - Real.arctan y| ≤ |x - y| := by
  have hslope (z : ℝ) : ‖deriv Real.arctan z‖ ≤ 1 := by
    rw [Real.deriv_arctan, Real.norm_of_nonneg (by positivity), div_le_one (by positivity)]
    nlinarith
  have hmean := Convex.norm_image_sub_le_of_norm_deriv_le
    (fun z _ => Real.differentiable_arctan z) (fun z _ => hslope z) convex_univ
    (Set.mem_univ y) (Set.mem_univ x)
  simpa using hmean

namespace Quat

/-- Up to this angle the series is taken. -/
theorem threshold_real : (1e-3 : ℝ) = 1 / 1000 := by norm_num [Arith.scientific_real]

/-- What the components of a rotation vector are multiplied with in the quaternion. -/
noncomputable def stretch (angle : ℝ) : ℝ :=
  if angle ≤ 1e-3 then 0.5 - angle * angle / 48.0 + angle * angle * (angle * angle) / 3840.0
  else Real.sin (angle / 2.0) / angle

theorem stretch_of_small {angle : ℝ} (h : angle ≤ 1 / 1000) :
    stretch angle = 1 / 2 - angle ^ 2 / 48 + angle ^ 4 / 3840 := by
  rw [stretch, threshold_real, if_pos h]
  norm_num [Arith.scientific_real]
  ring

theorem stretch_of_large {angle : ℝ} (h : 1 / 1000 < angle) :
    stretch angle = Real.sin (angle / 2) / angle := by
  rw [stretch, threshold_real, if_neg (not_le.mpr h)]
  norm_num [Arith.scientific_real]

/-- The half sine and the half cosine that the quaternion of an angle is made from. -/
noncomputable def halfSine (angle : ℝ) : ℝ := stretch |angle| * angle

noncomputable def halfCosine (angle : ℝ) : ℝ := Real.cos (angle / 2.0)

theorem halfCosine_eq (angle : ℝ) : halfCosine angle = Real.cos (angle / 2) := by
  norm_num [halfCosine, Arith.scientific_real]

theorem ofRotationVector_real (r : Vec3 ℝ) :
    ofRotationVector r = ⟨stretch r.norm * r.x, stretch r.norm * r.y, stretch r.norm * r.z,
      halfCosine r.norm⟩ := rfl

theorem ofRotationVector_scale {k : Vec3 ℝ} (hk : k.IsUnit) (angle : ℝ) :
    ofRotationVector (k.scale angle) = ⟨(k.scale (halfSine angle)).x,
      (k.scale (halfSine angle)).y, (k.scale (halfSine angle)).z, halfCosine angle⟩ := by
  have hnorm : (k.scale angle).norm = |angle| := by
    rw [Vec3.norm_scale, Vec3.isUnit_iff_norm.mp hk, mul_one]
  have hcosine : halfCosine |angle| = halfCosine angle := by
    have hhalf : |angle| / 2 = |angle / 2| := by rw [abs_div, abs_two]
    rw [halfCosine_eq, halfCosine_eq, hhalf, Real.cos_abs]
  rw [ofRotationVector_real, hnorm, hcosine]
  apply Vec4.ext
  · simp only [Vec3.scale, halfSine]
    ring
  · simp only [Vec3.scale, halfSine]
    ring
  · simp only [Vec3.scale, halfSine]
    ring
  · rfl

theorem halfSine_neg (angle : ℝ) : halfSine (-angle) = -halfSine angle := by
  rw [halfSine, halfSine, abs_neg, mul_neg]

theorem halfCosine_neg (angle : ℝ) : halfCosine (-angle) = halfCosine angle := by
  rw [halfCosine_eq, halfCosine_eq, neg_div, Real.cos_neg]

/-- Above the threshold of the series the sine is the right one. -/
theorem halfSine_of_large {angle : ℝ} (h : 1 / 1000 < |angle|) :
    halfSine angle = Real.sin (angle / 2) := by
  rw [halfSine, stretch_of_large h]
  rcases abs_choice angle with hsame | hopposite
  · rw [hsame, div_mul_cancel₀]
    rintro rfl
    norm_num at h
  · rw [hopposite, neg_div, Real.sin_neg, neg_div_neg_eq, div_mul_cancel₀]
    rintro rfl
    norm_num at h

theorem halfCosine_of_small {angle : ℝ} (h : |angle| ≤ 1 / 1000) : 9 / 10 ≤ halfCosine angle := by
  have hcos : 1 - (angle / 2) ^ 2 / 2 ≤ Real.cos (angle / 2) := Real.one_sub_sq_div_two_le_cos
  have hsquare : angle ^ 2 ≤ (1 / 1000) ^ 2 := by
    rw [← sq_abs]
    exact pow_le_pow_left₀ (abs_nonneg _) h 2
  rw [halfCosine_eq]
  linarith

/-- Below it the series is as good as the sine. -/
theorem halfSine_near {angle : ℝ} (h : |angle| ≤ 1 / 1000) :
    |halfSine angle - Real.sin (angle / 2)| ≤ 1 / 10 ^ 18 := by
  have hseries : halfSine angle =
      angle / 2 - (angle / 2) ^ 3 / 6 + angle ^ 5 / 3840 := by
    rw [halfSine, stretch_of_small h, sq_abs, pow_abs, abs_of_nonneg (by positivity)]
    ring
  have hfifth : |angle| ^ 5 ≤ (1 / 1000) ^ 5 := pow_le_pow_left₀ (abs_nonneg _) h 5
  have hsine := Real.sin_bound (x := angle / 2) (by
    rw [abs_div, abs_two]
    linarith)
  have hlast : |angle ^ 5 / 3840| = |angle| ^ 5 / 3840 := by
    rw [abs_div, abs_pow, abs_of_pos (by norm_num : (0 : ℝ) < 3840)]
  have hsmall : |angle / 2| ^ 5 = |angle| ^ 5 / 32 := by
    rw [abs_div, abs_two, div_pow]
    norm_num
  rw [hsmall] at hsine
  have hsplit : halfSine angle - Real.sin (angle / 2) =
      angle ^ 5 / 3840 - (Real.sin (angle / 2) - (angle / 2 - (angle / 2) ^ 3 / 6)) := by
    rw [hseries]
    ring
  rw [hsplit]
  apply (abs_sub _ _).trans
  rw [hlast]
  norm_num at hfifth ⊢
  linarith

/-- The angle that the quaternion of an angle turns through. -/
noncomputable def angleTurned (angle : ℝ) : ℝ :=
  if |angle| ≤ 1e-3 then 2.0 * Real.arctan (halfSine angle / halfCosine angle) else angle

theorem angleTurned_of_small {angle : ℝ} (h : |angle| ≤ 1 / 1000) :
    angleTurned angle = 2 * Real.arctan (halfSine angle / halfCosine angle) := by
  rw [angleTurned, threshold_real, if_pos h]
  norm_num [Arith.scientific_real]

theorem angleTurned_of_large {angle : ℝ} (h : 1 / 1000 < |angle|) : angleTurned angle = angle := by
  rw [angleTurned, threshold_real, if_neg (not_le.mpr h)]

theorem angleTurned_neg (angle : ℝ) : angleTurned (-angle) = -angleTurned angle := by
  simp only [angleTurned, abs_neg, halfSine_neg, halfCosine_neg, neg_div, Real.arctan_neg, mul_neg]
  split
  · rfl
  · rfl

/-- The angle that is turned through is all but the one asked for. -/
theorem angleTurned_near (angle : ℝ) : |angleTurned angle - angle| ≤ 1 / 10 ^ 17 := by
  by_cases hsmall : |angle| ≤ 1 / 1000
  · have hcosine := halfCosine_of_small hsmall
    have hpos : 0 < halfCosine angle := by linarith
    have hbounds := abs_le.mp hsmall
    have hangle : angle = 2 * Real.arctan (Real.sin (angle / 2) / halfCosine angle) := by
      rw [halfCosine_eq, ← Real.tan_eq_sin_div_cos, Real.arctan_tan]
      · ring
      · linarith [Real.two_le_pi]
      · linarith [Real.two_le_pi]
    have hslope := abs_arctan_sub_le (halfSine angle / halfCosine angle)
      (Real.sin (angle / 2) / halfCosine angle)
    rw [← sub_div, abs_div, abs_of_pos hpos] at hslope
    have hquotient : |halfSine angle - Real.sin (angle / 2)| / halfCosine angle ≤
        1 / 10 ^ 18 / (9 / 10) :=
      div_le_div₀ (by norm_num) (halfSine_near hsmall) (by norm_num) hcosine
    have hdifference : angleTurned angle - angle = 2 *
        (Real.arctan (halfSine angle / halfCosine angle) -
          Real.arctan (Real.sin (angle / 2) / halfCosine angle)) := by
      rw [angleTurned_of_small hsmall, mul_sub, ← hangle]
    rw [hdifference, abs_mul, abs_two]
    norm_num at hquotient ⊢
    linarith
  · rw [angleTurned_of_large (not_le.mp hsmall), sub_self, abs_zero]
    norm_num

/-- How a quaternion that need not be of length one gives away the angle it turns through. -/
structure Turns (sine cosine angle : ℝ) : Prop where
  long : 1 / 2 ≤ cosine ^ 2 + sine ^ 2
  cos : (cosine ^ 2 + sine ^ 2) * Real.cos angle = cosine ^ 2 - sine ^ 2
  sin : (cosine ^ 2 + sine ^ 2) * Real.sin angle = 2 * (cosine * sine)

theorem turns_half (angle : ℝ) : Turns (Real.sin (angle / 2)) (Real.cos (angle / 2)) angle := by
  have hcircle := Real.cos_sq_add_sin_sq (angle / 2)
  have hdouble : angle = 2 * (angle / 2) := by ring
  constructor
  · rw [hcircle]
    norm_num
  · rw [hcircle, one_mul, ← Real.cos_two_mul', ← hdouble]
  · rw [hcircle, one_mul, ← mul_assoc, mul_right_comm, ← Real.sin_two_mul, ← hdouble]

theorem turns_arctan {sine cosine : ℝ} (h : 9 / 10 ≤ cosine) :
    Turns sine cosine (2 * Real.arctan (sine / cosine)) := by
  have hpos : 0 < cosine := by linarith
  have hsum : 0 < cosine ^ 2 + sine ^ 2 := by positivity
  have hcos : (cosine ^ 2 + sine ^ 2) * Real.cos (Real.arctan (sine / cosine)) ^ 2 =
      cosine ^ 2 := by
    rw [Real.cos_sq_arctan]
    field_simp
  have hsin : Real.sin (Real.arctan (sine / cosine)) * cosine =
      sine * Real.cos (Real.arctan (sine / cosine)) := by
    rw [Real.sin_arctan, Real.cos_arctan]
    field_simp
  constructor
  · nlinarith [sq_nonneg sine]
  · rw [Real.cos_two_mul]
    linear_combination 2 * hcos
  · rw [Real.sin_two_mul]
    apply mul_right_cancel₀ hpos.ne'
    linear_combination 2 * (cosine ^ 2 + sine ^ 2) *
      Real.cos (Real.arctan (sine / cosine)) * hsin + 2 * sine * hcos

theorem turns_angleTurned (angle : ℝ) :
    Turns (halfSine angle) (halfCosine angle) (angleTurned angle) := by
  by_cases hsmall : |angle| ≤ 1 / 1000
  · rw [angleTurned_of_small hsmall]
    exact turns_arctan (halfCosine_of_small hsmall)
  · rw [not_le] at hsmall
    rw [angleTurned_of_large hsmall, halfSine_of_large hsmall, halfCosine_eq]
    exact turns_half angle

/-- The matrix of a quaternion about an axis turns, and stretches by the square of its length. -/
theorem Turns.apply_eq_scale {sine cosine angle : ℝ} (h : Turns sine cosine angle) {k : Vec3 ℝ}
    (hk : k.IsUnit) (v : Vec3 ℝ) :
    apply ⟨(k.scale sine).x, (k.scale sine).y, (k.scale sine).z, cosine⟩ v =
      (Vec3.spun k angle v).scale (cosine ^ 2 + sine ^ 2) := by
  obtain ⟨-, hcos, hsin⟩ := h
  have hlength : (k.scale sine).dot (k.scale sine) = sine ^ 2 := by
    rw [Vec3.scale_dot_scale, hk.dot_self, mul_one]
  rw [apply_eq, hlength]
  apply Vec3.ext
  · simp only [Vec3.spun, Vec3.add_x, Vec3.scale, Vec3.cross, Vec3.dot]
    linear_combination (-v.x + k.x * (k.x * v.x + k.y * v.y + k.z * v.z)) * hcos -
      (k.y * v.z - k.z * v.y) * hsin
  · simp only [Vec3.spun, Vec3.add_y, Vec3.scale, Vec3.cross, Vec3.dot]
    linear_combination (-v.y + k.y * (k.x * v.x + k.y * v.y + k.z * v.z)) * hcos -
      (k.z * v.x - k.x * v.z) * hsin
  · simp only [Vec3.spun, Vec3.add_z, Vec3.scale, Vec3.cross, Vec3.dot]
    linear_combination (-v.z + k.z * (k.x * v.x + k.y * v.y + k.z * v.z)) * hcos -
      (k.x * v.y - k.y * v.x) * hsin

end Quat

namespace Vec3

theorem norm_opposite (v : Vec3 ℝ) : v.opposite.norm = v.norm := by
  rw [opposite, norm_scale, abs_neg, abs_one, one_mul]

theorem unit?_opposite (v : Vec3 ℝ) : v.opposite.unit? = v.unit?.map opposite := by
  rw [unit?_real, unit?_real, norm_opposite]
  split
  · rfl
  · have hdivide : v.opposite.divide v.norm = (v.divide v.norm).opposite := by
      simp only [opposite, divide, scale, mk.injEq]
      exact ⟨by ring, by ring, by ring⟩
    rw [hdivide]
    rfl

end Vec3

namespace Turtle

theorem radians_neg (degrees : ℝ) : radians (-degrees) = -radians degrees := neg_mul _ _

/-- A direction is turned about the axis by the angle that the quaternion turns through. -/
theorem turned?_eq_spun {axis v : Vec3 ℝ} (haxis : 1 / 10 ^ 9 ≤ axis.norm) (hv : v.IsUnit)
    (degrees : ℝ) : turned? axis degrees v =
      some (Vec3.spun (axis.divide axis.norm) (Quat.angleTurned (radians degrees)) v) := by
  have hk := Vec3.isUnit_direction haxis
  have hturns := Quat.turns_angleTurned (radians degrees)
  have hspun := Vec3.isUnit_spun hk (Quat.angleTurned (radians degrees)) hv
  have hone := Vec3.isUnit_iff_norm.mp hspun
  have hlong := hturns.long
  simp only [turned?, Vec3.unit?_of_le haxis, bind, Option.bind]
  rw [rotated, Quat.ofRotationVector_scale hk, hturns.apply_eq_scale hk, Vec3.unit?_scale,
    hspun.unit?]
  · linarith
  · norm_num [hone]
  · rw [Vec3.norm_scale, hone, mul_one, abs_of_pos (by linarith)]
    norm_num at hlong ⊢
    linarith

theorem turned?_of_short {axis : Vec3 ℝ} (haxis : axis.norm < 1 / 10 ^ 9) (degrees : ℝ)
    (v : Vec3 ℝ) : turned? axis degrees v = none := by
  simp only [turned?, Vec3.unit?_eq_none_iff.mpr haxis, bind, Option.bind]

/-- Only the direction of an axis counts. -/
theorem turned?_scale {axis : Vec3 ℝ} {s : ℝ} (hs : 0 < s) (haxis : 1 / 10 ^ 9 ≤ axis.norm)
    (hscaled : 1 / 10 ^ 9 ≤ (axis.scale s).norm) (degrees : ℝ) (v : Vec3 ℝ) :
    turned? (axis.scale s) degrees v = turned? axis degrees v := by
  simp only [turned?, Vec3.unit?_scale hs haxis hscaled]

/-- To the left about an axis is to the right about its opposite. -/
theorem turned?_opposite (axis : Vec3 ℝ) (degrees : ℝ) (v : Vec3 ℝ) :
    turned? axis.opposite (-degrees) v = turned? axis degrees v := by
  have hvector (k : Vec3 ℝ) : k.opposite.scale (radians (-degrees)) = k.scale (radians degrees) := by
    simp only [radians_neg, Vec3.opposite, Vec3.scale, Vec3.mk.injEq]
    exact ⟨by ring, by ring, by ring⟩
  simp only [turned?, Vec3.unit?_opposite]
  cases axis.unit? with
  | none => rfl
  | some k => simp only [Option.map_some, bind, Option.bind, hvector]

/-- What becomes of a turtle that is rotated about an axis with the direction `k`. -/
structure Rotates (axis k : Vec3 ℝ) (degrees : ℝ) (t next : Turtle ℝ) : Prop where
  length : next.orientation.norm = 1
  along : next.orientation.dot k = t.orientation.dot k
  back : next.rotate axis (-degrees) = .ok t
  /-- One rotation for all turtles, through an angle that the degrees decide, -/
  turned : next.orientation =
    Vec3.spun k (Quat.angleTurned (radians degrees)) t.orientation
  /-- which is the one asked for, from a thousandth of a radian on exactly. -/
  near : |Quat.angleTurned (radians degrees) - radians degrees| ≤ 1 / 10 ^ 17
  exact : 1 / 1000 < |radians degrees| → Quat.angleTurned (radians degrees) = radians degrees

variable (axis : Vec3 ℝ) (degrees : ℝ) (t : Turtle ℝ)

theorem exists_rotates (haxis : 1 / 10 ^ 9 ≤ axis.norm) (ht : t.orientation.norm = 1) :
    ∃ next, t.rotate axis degrees = .ok next ∧
      Rotates axis (axis.divide axis.norm) degrees t next := by
  have hk := Vec3.isUnit_direction haxis
  have hunit : t.orientation.IsUnit := Vec3.isUnit_iff_norm.mpr ht
  obtain ⟨orientation, hturned⟩ : ∃ orientation,
    Vec3.spun (axis.divide axis.norm) (Quat.angleTurned (radians degrees)) t.orientation =
      orientation := ⟨_, rfl⟩
  have hspun : orientation.IsUnit := hturned ▸ Vec3.isUnit_spun hk _ hunit
  have hback : turned? axis (-degrees) orientation = some t.orientation := by
    rw [turned?_eq_spun haxis hspun, radians_neg, Quat.angleTurned_neg, ← hturned,
      Vec3.spun_back hk]
  refine ⟨{ t with orientation }, ?_, ?_⟩
  · simp only [rotate, turned?_eq_spun haxis hunit, hturned]
  · exact {
      length := Vec3.isUnit_iff_norm.mp hspun
      along := hturned ▸ Vec3.dot_spun hk _ _
      back := by simp only [rotate, hback]
      turned := hturned.symm
      near := Quat.angleTurned_near _
      exact := Quat.angleTurned_of_large }

theorem rotate_frame {next : Turtle ℝ}
    (h : t.rotate axis degrees = .ok next ∨ t.rotate axis degrees = .error next) :
    next.position = t.position ∧ next.scale = t.scale ∧ next.depth = t.depth := by
  unfold rotate at h
  cases hturned : turned? axis degrees t.orientation with
  | none =>
      obtain rfl : t = next := by simpa [hturned] using h
      exact ⟨rfl, rfl, rfl⟩
  | some orientation =>
      obtain rfl : { t with orientation } = next := by simpa [hturned] using h
      exact ⟨rfl, rfl, rfl⟩

/-- In exact arithmetic a turtle's rotation is a rigid rotation about the axis, which only a short
axis has none of. It is the same about every axis of one direction, and the other way round about
the opposite one. -/
theorem rotate_rigid :
    (axis.norm < 1 / 10 ^ 9 → t.rotate axis degrees = .error t) ∧
      (1 / 10 ^ 9 ≤ axis.norm → t.orientation.norm = 1 → ∃ next,
        t.rotate axis degrees = .ok next ∧
          Rotates axis (axis.divide axis.norm) degrees t next) ∧
      (1 / 10 ^ 9 ≤ axis.norm → ∀ s > 0, 1 / 10 ^ 9 ≤ (axis.scale s).norm →
        t.rotate (axis.scale s) degrees = t.rotate axis degrees) ∧
      t.rotate axis.opposite (-degrees) = t.rotate axis degrees ∧
      ∀ next, t.rotate axis degrees = .ok next ∨ t.rotate axis degrees = .error next →
        next.position = t.position ∧ next.scale = t.scale ∧ next.depth = t.depth := by
  refine ⟨?_, exists_rotates axis degrees t, ?_, ?_, fun next => rotate_frame axis degrees t⟩
  · intro hshort
    simp only [rotate, turned?_of_short hshort]
  · intro haxis s hs hscaled
    simp only [rotate, turned?_scale hs haxis hscaled]
  · simp only [rotate, turned?_opposite]

/-- A rotation so slight that the series is taken. -/
theorem rotate_slightly :
    ∃ next, (origin : Turtle ℝ).rotate ⟨0, 0, 2⟩ (1 / 100) = .ok next ∧
      next.orientation.norm = 1 ∧ next.rotate ⟨0, 0, 2⟩ (-(1 / 100)) = .ok origin ∧
      (origin : Turtle ℝ).rotate (Vec3.scale ⟨0, 0, 2⟩ 3) (1 / 100) = .ok next := by
  have haxis : Vec3.norm (⟨0, 0, 2⟩ : Vec3 ℝ) = 2 :=
    Vec3.norm_eq_of_sq (by norm_num) (by norm_num [Vec3.dot])
  obtain ⟨-, hexists, hscaled, -, -⟩ := rotate_rigid ⟨0, 0, 2⟩ (1 / 100) origin
  rw [haxis] at hexists hscaled
  obtain ⟨next, hnext, hrotates⟩ :=
    hexists (by norm_num) (Vec3.isUnit_iff_norm.mp Vec3.isUnit_up)
  have hlonger := hscaled (by norm_num) 3 (by norm_num) (by
    rw [Vec3.norm_scale, haxis]
    norm_num)
  exact ⟨next, hnext, hrotates.length, hrotates.back, hlonger.trans hnext⟩

end Turtle
end Meristem
