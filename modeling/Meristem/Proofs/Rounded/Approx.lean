import Meristem.Proofs.Exact.Rotation
import Meristem.Proofs.Rounded.Order

/-!
Computed numbers and the numbers they are computed for. Each operation on doubles of moderate size
adds at most one grain to the errors of its operands, and what is computed from vectors is followed
through the same definitions read over the real numbers.
-/

namespace Meristem

/-- More than one rounding of a number of moderate size can be off. -/
noncomputable def grain : ℝ := (1 / 2 ^ 38 : ℚ)

theorem grain_pos : 0 < grain := by
  unfold grain
  positivity

/-- The double is finite and off by at most `e` from a number of size at most `b`. -/
structure Approx (b e : ℝ) (z : Float) (r : ℝ) : Prop where
  finite : z.isFinite = true
  size : |r| ≤ b
  error : |toReal z - r| ≤ e

namespace Approx

variable {b c e f r s : ℝ} {x y z : Float}

theorem exact (hx : x.isFinite = true) (hsize : |toReal x| ≤ b) : Approx b 0 x (toReal x) :=
  ⟨hx, hsize, by rw [sub_self, abs_zero]⟩

/-- A literal is what it says, without an error. -/
theorem literal (hx : x.isFinite = true) (hvalue : toReal x = r) (hr : 0 ≤ r) :
    Approx r 0 x r := by
  have hexact : Approx r 0 x (toReal x) := by
    apply exact hx
    rw [hvalue, abs_of_nonneg hr]
  rwa [hvalue] at hexact

theorem mono (h : Approx b e x r) (hb : b ≤ c) (he : e ≤ f) : Approx c f x r :=
  ⟨h.finite, h.size.trans hb, h.error.trans he⟩

theorem size_nonneg (h : Approx b e x r) : 0 ≤ b := (abs_nonneg r).trans h.size

theorem error_nonneg (h : Approx b e x r) : 0 ≤ e := (abs_nonneg _).trans h.error

theorem abs_le (h : Approx b e x r) : |toReal x| ≤ b + e := by
  have htriangle := abs_add_le (toReal x - r) r
  rw [sub_add_cancel] at htriangle
  linarith [h.size, h.error]

/-- What a number is computed for can be forgotten, so that only its own size is left. -/
theorem forget (h : Approx b e x r) (hsize : b + e ≤ c) : Approx c 0 x (toReal x) :=
  exact h.finite (h.abs_le.trans hsize)

end Approx

theorem halfStep_le_grain {r : ℝ} (h : |r| ≤ 2 ^ 14) : halfStep r ≤ grain := by
  have hsmallest : (2 : ℝ) ^ (-1075 : ℤ) ≤ 2 ^ (-39 : ℤ) :=
    zpow_le_zpow_right₀ (by norm_num) (by norm_num)
  have hpart : |r| * (2 : ℝ) ^ (-53 : ℤ) ≤ 2 ^ 14 * 2 ^ (-53 : ℤ) :=
    mul_le_mul_of_nonneg_right h (by positivity)
  calc halfStep r ≤ 2 ^ 14 * 2 ^ (-53 : ℤ) + 2 ^ (-39 : ℤ) := add_le_add hpart hsmallest
    _ = grain := by norm_num [grain]

theorem Nearest.isFinite_of_moderate {z : Float} {r : ℝ} (h : Nearest z r) (hr : |r| ≤ 2 ^ 14) :
    z.isFinite = true := by
  refine h.isFinite (hr.trans ?_)
  rw [← zpow_natCast]
  exact zpow_le_zpow_right₀ (by norm_num) (by norm_num)

/-- One rounding of a number of moderate size is off by at most one grain. -/
theorem Nearest.approx {z : Float} {r s b e : ℝ} (h : Nearest z s) (hs : |s| ≤ 2 ^ 14)
    (hr : |r| ≤ b) (herror : |s - r| ≤ e) : Approx b (e + grain) z r := by
  have hfinite := h.isFinite_of_moderate hs
  refine ⟨hfinite, hr, ?_⟩
  calc |toReal z - r| ≤ |toReal z - s| + |s - r| := abs_sub_le _ _ _
    _ ≤ grain + e := add_le_add ((h.near hfinite).trans (halfStep_le_grain hs)) herror
    _ = e + grain := add_comm _ _

namespace Approx

variable {b c e f r s : ℝ} {x y : Float}

theorem add (hx : Approx b e x r) (hy : Approx c f y s) (hsize : b + c + e + f ≤ 2 ^ 14) :
    Approx (b + c) (e + f + grain) (x + y) (r + s) := by
  apply (add_nearest hx.finite hy.finite).approx
  · have htriangle := abs_add_le (toReal x) (toReal y)
    linarith [hx.abs_le, hy.abs_le]
  · exact (abs_add_le r s).trans (add_le_add hx.size hy.size)
  · have hsplit : toReal x + toReal y - (r + s) = (toReal x - r) + (toReal y - s) := by ring
    rw [hsplit]
    exact (abs_add_le _ _).trans (add_le_add hx.error hy.error)

theorem sub (hx : Approx b e x r) (hy : Approx c f y s) (hsize : b + c + e + f ≤ 2 ^ 14) :
    Approx (b + c) (e + f + grain) (x - y) (r - s) := by
  apply (sub_nearest hx.finite hy.finite).approx
  · have htriangle := abs_sub (toReal x) (toReal y)
    linarith [hx.abs_le, hy.abs_le]
  · exact (abs_sub r s).trans (add_le_add hx.size hy.size)
  · have hsplit : toReal x - toReal y - (r - s) = (toReal x - r) - (toReal y - s) := by ring
    rw [hsplit]
    exact (abs_sub _ _).trans (add_le_add hx.error hy.error)

theorem neg (hx : Approx b e x r) : Approx b e (-x) (-r) := by
  obtain ⟨hfinite, hvalue⟩ := neg_exact hx.finite
  refine ⟨hfinite, (abs_neg r).trans_le hx.size, ?_⟩
  rw [hvalue, neg_sub_neg, abs_sub_comm]
  exact hx.error

theorem mul (hx : Approx b e x r) (hy : Approx c f y s) (hsize : (b + e) * (c + f) ≤ 2 ^ 14) :
    Approx (b * c) (e * c + b * f + e * f + grain) (x * y) (r * s) := by
  apply (mul_nearest hx.finite hy.finite).approx
  · rw [abs_mul]
    exact (mul_le_mul hx.abs_le hy.abs_le (abs_nonneg _)
      (add_nonneg hx.size_nonneg hx.error_nonneg)).trans hsize
  · rw [abs_mul]
    exact mul_le_mul hx.size hy.size (abs_nonneg _) hx.size_nonneg
  · have hsplit : toReal x * toReal y - r * s =
        (toReal x - r) * s + r * (toReal y - s) + (toReal x - r) * (toReal y - s) := by ring
    have hleft : |(toReal x - r) * s| ≤ e * c := by
      rw [abs_mul]
      exact mul_le_mul hx.error hy.size (abs_nonneg _) hx.error_nonneg
    have hright : |r * (toReal y - s)| ≤ b * f := by
      rw [abs_mul]
      exact mul_le_mul hx.size hy.error (abs_nonneg _) hx.size_nonneg
    have hboth : |(toReal x - r) * (toReal y - s)| ≤ e * f := by
      rw [abs_mul]
      exact mul_le_mul hx.error hy.error (abs_nonneg _) hx.error_nonneg
    rw [hsplit]
    exact (abs_add_three _ _ _).trans (add_le_add (add_le_add hleft hright) hboth)

theorem div (hx : Approx b e x r) (hy : y.isFinite = true) (hvalue : toReal y = c) (hc : 1 ≤ c)
    (hsize : b + e ≤ 2 ^ 14) : Approx (b / c) (e + grain) (x / y) (r / c) := by
  have hpos : 0 < c := lt_of_lt_of_le one_pos hc
  have hsmaller {a : ℝ} (ha : 0 ≤ a) : a / c ≤ a := div_le_self ha hc
  have hnearest := div_nearest hx.finite hy (by rw [hvalue]; exact hpos.ne')
  rw [hvalue] at hnearest
  apply hnearest.approx
  · rw [abs_div, abs_of_pos hpos]
    exact (hsmaller (abs_nonneg _)).trans (hx.abs_le.trans hsize)
  · rw [abs_div, abs_of_pos hpos]
    exact div_le_div_of_nonneg_right hx.size hpos.le
  · rw [← sub_div, abs_div, abs_of_pos hpos]
    exact (hsmaller (abs_nonneg _)).trans hx.error

/-- What a small error does to the square. -/
theorem sq_near (hx : Approx b e x r) : |toReal x ^ 2 - r ^ 2| ≤ e * (2 * b + e) := by
  have hsum : |toReal x + r| ≤ 2 * b + e := by
    have htriangle := abs_add_le (toReal x) r
    linarith [hx.abs_le, hx.size]
  rw [sq_sub_sq, abs_mul, mul_comm]
  exact mul_le_mul hx.error hsum (abs_nonneg _) hx.error_nonneg

end Approx

namespace Vec3

/-- The vector that a vector of finite doubles stands for. -/
noncomputable def value (v : Vec3 Float) : Vec3 ℝ := ⟨toReal v.x, toReal v.y, toReal v.z⟩

/-- All components are finite. -/
structure IsFinite (v : Vec3 Float) : Prop where
  x : v.x.isFinite = true
  y : v.y.isFinite = true
  z : v.z.isFinite = true

/-- Each component is off by at most `e` from one of size at most `b`. -/
structure Approx (b e : ℝ) (v : Vec3 Float) (r : Vec3 ℝ) : Prop where
  x : Meristem.Approx b e v.x r.x
  y : Meristem.Approx b e v.y r.y
  z : Meristem.Approx b e v.z r.z

namespace Approx

variable {b c e f s : ℝ} {u v : Vec3 Float} {p q : Vec3 ℝ} {x : Float}

theorem isFinite (h : Approx b e v q) : v.IsFinite := ⟨h.x.finite, h.y.finite, h.z.finite⟩

theorem dot (hu : Approx b e u p) (hv : Approx c f v q)
    (hsize : 3 * ((b + e) * (c + f)) + 5 * grain ≤ 2 ^ 14) :
    Meristem.Approx (3 * (b * c)) (3 * (e * c + b * f + e * f) + 5 * grain) (u.dot v)
      (p.dot q) := by
  have hproduct : 0 ≤ (b + e) * (c + f) :=
    mul_nonneg (add_nonneg hu.x.size_nonneg hu.x.error_nonneg)
      (add_nonneg hv.x.size_nonneg hv.x.error_nonneg)
  have hgrain := grain_pos
  have hone : (b + e) * (c + f) ≤ 2 ^ 14 := by linarith
  have htwo := ((hu.x.mul hv.x hone).add (hu.y.mul hv.y hone) (by linarith))
  have hthree := htwo.add (hu.z.mul hv.z hone) (by linarith)
  exact hthree.mono (by linarith) (by linarith)

theorem scale (hv : Approx b e v q) (hx : Meristem.Approx c f x s)
    (hsize : (b + e) * (c + f) ≤ 2 ^ 14) :
    Approx (b * c) (e * c + b * f + e * f + grain) (v.scale x) (q.scale s) :=
  ⟨hv.x.mul hx hsize, hv.y.mul hx hsize, hv.z.mul hx hsize⟩

theorem cross (hu : Approx b e u p) (hv : Approx c f v q)
    (hsize : 2 * ((b + e) * (c + f)) + 2 * grain ≤ 2 ^ 14) :
    Approx (2 * (b * c)) (2 * (e * c + b * f + e * f) + 3 * grain) (u.cross v) (p.cross q) := by
  have hproduct : 0 ≤ (b + e) * (c + f) :=
    mul_nonneg (add_nonneg hu.x.size_nonneg hu.x.error_nonneg)
      (add_nonneg hv.x.size_nonneg hv.x.error_nonneg)
  have hgrain := grain_pos
  have hone : (b + e) * (c + f) ≤ 2 ^ 14 := by linarith
  have hdifference {x y z w : Float} {k l m n : ℝ} (hx : Meristem.Approx b e x k)
      (hy : Meristem.Approx c f y l) (hz : Meristem.Approx b e z m)
      (hw : Meristem.Approx c f w n) :
      Meristem.Approx (2 * (b * c)) (2 * (e * c + b * f + e * f) + 3 * grain) (x * y - z * w)
        (k * l - m * n) :=
    ((hx.mul hy hone).sub (hz.mul hw hone) (by linarith)).mono (by linarith) (by linarith)
  exact ⟨hdifference hu.y hv.z hu.z hv.y, hdifference hu.z hv.x hu.x hv.z,
    hdifference hu.x hv.y hu.y hv.x⟩

end Approx

theorem dot_self_value (v : Vec3 Float) :
    v.value.dot v.value = toReal v.x ^ 2 + toReal v.y ^ 2 + toReal v.z ^ 2 := by
  simp only [Vec3.dot, value]
  ring

/-- No component is longer than the vector. -/
theorem sq_le_dot_self_value (v : Vec3 Float) :
    toReal v.x ^ 2 ≤ v.value.dot v.value ∧ toReal v.y ^ 2 ≤ v.value.dot v.value ∧
      toReal v.z ^ 2 ≤ v.value.dot v.value := by
  rw [dot_self_value]
  have hx := sq_nonneg (toReal v.x)
  have hy := sq_nonneg (toReal v.y)
  have hz := sq_nonneg (toReal v.z)
  refine ⟨?_, ?_, ?_⟩
  · linarith
  · linarith
  · linarith

/-- What small errors do to the square of a length. -/
theorem Approx.dot_self_near {b e : ℝ} {v : Vec3 Float} {q : Vec3 ℝ} (h : Approx b e v q) :
    |v.value.dot v.value - q.dot q| ≤ 3 * (e * (2 * b + e)) := by
  have hsplit : v.value.dot v.value - q.dot q = (toReal v.x ^ 2 - q.x ^ 2) +
      (toReal v.y ^ 2 - q.y ^ 2) + (toReal v.z ^ 2 - q.z ^ 2) := by
    rw [dot_self_value, Vec3.dot]
    ring
  rw [hsplit]
  refine (abs_add_three _ _ _).trans ?_
  linarith [h.x.sq_near, h.y.sq_near, h.z.sq_near]

theorem IsFinite.approx {v : Vec3 Float} (h : v.IsFinite) {b : ℝ} (hx : |toReal v.x| ≤ b)
    (hy : |toReal v.y| ≤ b) (hz : |toReal v.z| ≤ b) : Approx b 0 v v.value :=
  ⟨.exact h.x hx, .exact h.y hy, .exact h.z hz⟩

end Vec3
end Meristem
