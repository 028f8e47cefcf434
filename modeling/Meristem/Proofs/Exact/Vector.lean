import Mathlib.Analysis.SpecialFunctions.Trigonometric.Basic
import Meristem.Vector

/-!
Exact arithmetic: the definitions of growing and drawing instantiated at the real numbers, where
nothing is rounded and every number is finite. Literals are read as the fractions they stand for.
-/

namespace Meristem

noncomputable instance : Arith ℝ where
  ltDecidable := inferInstance
  leDecidable := inferInstance
  abs x := |x|

noncomputable instance : Scalar ℝ where
  sqrt := Real.sqrt
  sin := Real.sin
  cos := Real.cos
  floor x := ⌊x⌋
  pi := Real.pi
  isFinite _ := true
  single x := x

@[simp] theorem Arith.scientific_real (m e : ℕ) :
    @OfScientific.ofScientific ℝ Arith.toOfScientific m true e = (m : ℝ) / 10 ^ e := by
  have hrat : @OfScientific.ofScientific ℝ Arith.toOfScientific m true e =
      ((Rat.ofScientific m true e : ℚ) : ℝ) := rfl
  rw [hrat, Rat.ofScientific_true_def, Rat.mkRat_eq_div]
  push_cast
  rfl

theorem minNorm_real : (minNorm : ℝ) = 1 / 10 ^ 9 := by simp [minNorm]

namespace Vec3

section Components

variable {α : Type} [Arith α] (a b : Vec3 α)

@[simp] theorem add_x : (a + b).x = a.x + b.x := rfl
@[simp] theorem add_y : (a + b).y = a.y + b.y := rfl
@[simp] theorem add_z : (a + b).z = a.z + b.z := rfl
@[simp] theorem sub_x : (a - b).x = a.x - b.x := rfl
@[simp] theorem sub_y : (a - b).y = a.y - b.y := rfl
@[simp] theorem sub_z : (a - b).z = a.z - b.z := rfl

end Components

/-- A vector of length one. -/
def IsUnit (v : Vec3 ℝ) : Prop := v.dot v = 1

theorem IsUnit.dot_self {v : Vec3 ℝ} (h : v.IsUnit) : v.dot v = 1 := h

theorem dot_self_nonneg (v : Vec3 ℝ) : 0 ≤ v.dot v := by
  simp only [dot]
  nlinarith [sq_nonneg v.x, sq_nonneg v.y, sq_nonneg v.z]

theorem norm_real (v : Vec3 ℝ) : v.norm = √(v.dot v) := rfl

theorem dot_divide (v : Vec3 ℝ) (s : ℝ) : (v.divide s).dot (v.divide s) = v.dot v / s ^ 2 := by
  simp only [dot, divide]
  ring

theorem divide_dot (a b : Vec3 ℝ) (s : ℝ) : (a.divide s).dot b = a.dot b / s := by
  simp only [dot, divide]
  ring

theorem add_sub_self (a b : Vec3 ℝ) : a + b - a = b := by
  apply Vec3.ext
  · exact add_sub_cancel_left a.x b.x
  · exact add_sub_cancel_left a.y b.y
  · exact add_sub_cancel_left a.z b.z

theorem add_sub_add (a b c : Vec3 ℝ) : a + c - (b + c) = a - b := by
  apply Vec3.ext
  · exact add_sub_add_right_eq_sub a.x b.x c.x
  · exact add_sub_add_right_eq_sub a.y b.y c.y
  · exact add_sub_add_right_eq_sub a.z b.z c.z

/-- The area spanned by two vectors, squared. -/
theorem cross_dot_cross (a b : Vec3 ℝ) :
    (a.cross b).dot (a.cross b) = a.dot a * b.dot b - a.dot b ^ 2 := by
  simp only [dot, cross]
  ring

theorem cross_dot_left (a b : Vec3 ℝ) : (a.cross b).dot a = 0 := by
  simp only [dot, cross]
  ring

theorem isUnit_worldX : IsUnit worldX := by simp [IsUnit, dot, worldX]

theorem isUnit_worldY : IsUnit worldY := by simp [IsUnit, dot, worldY]

theorem isUnit_worldZ : IsUnit worldZ := by simp [IsUnit, dot, worldZ]

theorem isUnit_up : IsUnit up := isUnit_worldY

theorem norm_nonneg (v : Vec3 ℝ) : 0 ≤ v.norm := Real.sqrt_nonneg _

theorem norm_sq (v : Vec3 ℝ) : v.norm ^ 2 = v.dot v := Real.sq_sqrt v.dot_self_nonneg

theorem norm_eq_of_sq {v : Vec3 ℝ} {r : ℝ} (hr : 0 ≤ r) (h : v.dot v = r ^ 2) : v.norm = r := by
  rw [norm_real, h, Real.sqrt_sq hr]

theorem isUnit_iff_norm {v : Vec3 ℝ} : v.IsUnit ↔ v.norm = 1 := by
  rw [norm_real, Real.sqrt_eq_one, IsUnit]

theorem unit?_real (v : Vec3 ℝ) :
    v.unit? = if v.norm < 1 / 10 ^ 9 then none else some (v.divide v.norm) := by
  simp [unit?, Scalar.isFinite, minNorm_real]

/-- In exact arithmetic only a short vector has no direction. -/
theorem unit?_eq_none_iff {v : Vec3 ℝ} : v.unit? = none ↔ v.norm < 1 / 10 ^ 9 := by
  rw [unit?_real]
  by_cases hshort : v.norm < 1 / 10 ^ 9
  · rw [if_pos hshort]
    exact iff_of_true rfl hshort
  · rw [if_neg hshort]
    exact iff_of_false (Option.some_ne_none _) hshort

theorem unit?_of_le {v : Vec3 ℝ} (h : 1 / 10 ^ 9 ≤ v.norm) :
    v.unit? = some (v.divide v.norm) := by
  rw [unit?_real, if_neg (not_lt.mpr h)]

theorem isUnit_divide_norm {v : Vec3 ℝ} (h : 0 < v.norm) : IsUnit (v.divide v.norm) := by
  rw [IsUnit, dot_divide, ← norm_sq, div_self (pow_ne_zero 2 h.ne')]

theorem isUnit_direction {v : Vec3 ℝ} (h : 1 / 10 ^ 9 ≤ v.norm) : IsUnit (v.divide v.norm) :=
  isUnit_divide_norm (lt_of_lt_of_le (by norm_num) h)

/-- A vector that is not too short has a direction, which is as long as it should be. -/
theorem exists_unit? {v : Vec3 ℝ} (h : 1 / 10 ^ 18 ≤ v.dot v) :
    v.unit? = some (v.divide v.norm) ∧ IsUnit (v.divide v.norm) := by
  have hlong : 1 / 10 ^ 9 ≤ v.norm := by
    rw [norm_real]
    apply Real.le_sqrt_of_sq_le
    norm_num at h ⊢
    exact h
  exact ⟨unit?_of_le hlong, isUnit_direction hlong⟩

/-- A direction is of length one, whatever it is the direction of. -/
theorem isUnit_of_unit? {v direction : Vec3 ℝ} (h : v.unit? = some direction) :
    direction.IsUnit := by
  have hlong : 1 / 10 ^ 9 ≤ v.norm := by
    rw [← not_lt, ← unit?_eq_none_iff, h]
    simp
  obtain rfl : v.divide v.norm = direction := Option.some.inj ((unit?_of_le hlong).symm.trans h)
  exact isUnit_direction hlong

theorem IsUnit.unit? {v : Vec3 ℝ} (h : v.IsUnit) : v.unit? = some v := by
  have hnorm : v.norm = 1 := isUnit_iff_norm.mp h
  have hself : v.divide v.norm = v := by
    rw [hnorm]
    simp [divide]
  rw [unit?_of_le (by norm_num [hnorm]), hself]

theorem scale_dot_scale (v : Vec3 ℝ) (s : ℝ) : (v.scale s).dot (v.scale s) = s ^ 2 * v.dot v := by
  simp only [dot, scale]
  ring

theorem norm_scale (v : Vec3 ℝ) (s : ℝ) : (v.scale s).norm = |s| * v.norm := by
  rw [norm_real, scale_dot_scale, Real.sqrt_mul (sq_nonneg s), Real.sqrt_sq_eq_abs, norm_real]

/-- The other way. -/
noncomputable def opposite (v : Vec3 ℝ) : Vec3 ℝ := v.scale (-1)

theorem cross_dot_right (a b : Vec3 ℝ) : (a.cross b).dot b = 0 := by
  simp only [dot, cross]
  ring

/-- Stretching a vector does not change its direction. -/
theorem direction_scale (v : Vec3 ℝ) {s : ℝ} (hs : 0 < s) :
    (v.scale s).divide (v.scale s).norm = v.divide v.norm := by
  have hcomponent (x : ℝ) : x * s / (|s| * v.norm) = x / v.norm := by
    rw [abs_of_pos hs, mul_comm x, mul_div_mul_left _ _ hs.ne']
  rw [norm_scale]
  simp only [divide, scale, hcomponent]

theorem unit?_scale {v : Vec3 ℝ} {s : ℝ} (hs : 0 < s) (hv : 1 / 10 ^ 9 ≤ v.norm)
    (hscaled : 1 / 10 ^ 9 ≤ (v.scale s).norm) : (v.scale s).unit? = v.unit? := by
  rw [unit?_of_le hscaled, unit?_of_le hv, direction_scale v hs]

theorem dot_comm (a b : Vec3 ℝ) : a.dot b = b.dot a := by
  simp only [dot]
  ring

theorem divide_cross (a b : Vec3 ℝ) (s : ℝ) : (a.divide s).cross b = (a.cross b).divide s := by
  apply Vec3.ext
  · simp only [divide, cross]
    ring
  · simp only [divide, cross]
    ring
  · simp only [divide, cross]
    ring

theorem dot_divide_right (a b : Vec3 ℝ) (s : ℝ) : a.dot (b.divide s) = a.dot b / s := by
  simp only [dot, divide]
  ring

theorem dot_add (a b c : Vec3 ℝ) : a.dot (b + c) = a.dot b + a.dot c := by
  simp only [dot, add_x, add_y, add_z]
  ring

theorem divide_scale (v : Vec3 ℝ) {s : ℝ} (hs : s ≠ 0) : (v.divide s).scale s = v := by
  simp [divide, scale, hs]

theorem sub_self_norm (v : Vec3 ℝ) : (v - v).norm = 0 := by
  simp [norm_real, dot]

/-- The ends of two segments that start together are as far apart as their directions say. -/
theorem end_sub_end (place a b : Vec3 ℝ) (s : ℝ) :
    place + a.scale s - (place + b.scale s) = (a - b).scale s := by
  apply Vec3.ext
  · simp only [sub_x, add_x, scale]
    ring
  · simp only [sub_y, add_y, scale]
    ring
  · simp only [sub_z, add_z, scale]
    ring

theorem opposite_sub_norm (a b : Vec3 ℝ) : (a.opposite - b).norm = (a + b).norm := by
  have hflip : a.opposite - b = (a + b).scale (-1) := by
    apply Vec3.ext
    · simp only [sub_x, add_x, opposite, scale]
      ring
    · simp only [sub_y, add_y, opposite, scale]
      ring
    · simp only [sub_z, add_z, opposite, scale]
      ring
  rw [hflip, norm_scale]
  norm_num

theorem sum_dot_sum {a b : Vec3 ℝ} (ha : a.IsUnit) (hb : b.IsUnit) :
    (a + b).dot (a + b) = 2 * (1 + a.dot b) := by
  have hexpand : (a + b).dot (a + b) = a.dot a + b.dot b + 2 * a.dot b := by
    simp only [dot, add_x, add_y, add_z]
    ring
  rw [hexpand, ha.dot_self, hb.dot_self]
  ring

end Vec3
end Meristem
