import Meristem.Proofs.Exact.Turtle
import Meristem.Proofs.Rounded.Direction

/-!
Rotations of doubles by moderate angles. The quaternion of such a rotation has a scalar part far
from zero, so the rotated vector is far from short, and it is computed with small errors only. No
rotation of a vector of length one loses its direction.
-/

namespace Meristem

/-- The quaternion that a quaternion of finite doubles stands for. -/
noncomputable def Vec4.value (q : Vec4 Float) : Vec4 ℝ :=
  ⟨toReal q.x, toReal q.y, toReal q.z, toReal q.w⟩

/-- A quaternion of moderate components whose scalar part is far from zero. -/
structure Quat.Moderate (q : Quat Float) : Prop where
  x : Approx 2 0 q.x (toReal q.x)
  y : Approx 2 0 q.y (toReal q.y)
  z : Approx 2 0 q.z (toReal q.z)
  w : Approx 2 0 q.w (toReal q.w)
  turns : 3 / 4 ≤ toReal q.w

section Apply

variable {a b c d : Float} {r s : ℝ}

theorem toReal_two : toReal (2.0 : Float) = 2 := by
  have hvalue : toReal (2.0 : Float) = (4503599627370496 : ℕ) * 2 ^ (-51 : ℤ) := rfl
  rw [hvalue]
  norm_num

/-- An entry beside the diagonal of a rotation matrix. -/
theorem approx_twice {z : Float} (hz : Approx 8 (3 * grain) z r) :
    Approx 16 (7 * grain) (2.0 * z) ((2.0 : ℝ) * r) := by
  have htwo : Approx 2 0 (2.0 : Float) 2 := .literal rfl toReal_two zero_le_two
  have hliteral : (2.0 : ℝ) = 2 := by norm_num
  rw [hliteral]
  have hgrain := grain_pos
  refine (htwo.mul hz ?_).mono (by norm_num) (by linarith)
  norm_num [grain]

theorem approx_product (ha : Approx 2 0 a r) (hb : Approx 2 0 b s) :
    Approx 4 grain (a * b) (r * s) :=
  (ha.mul hb (by norm_num)).mono (by norm_num) (by linarith)

theorem approx_sum (ha : Approx 4 grain a r) (hb : Approx 4 grain b s) :
    Approx 8 (3 * grain) (a + b) (r + s) :=
  (ha.add hb (by norm_num [grain])).mono (by norm_num) (by linarith)

theorem approx_difference (ha : Approx 4 grain a r) (hb : Approx 4 grain b s) :
    Approx 8 (3 * grain) (a - b) (r - s) :=
  (ha.sub hb (by norm_num [grain])).mono (by norm_num) (by linarith)

variable {r₁ r₂ r₃ r₄ : ℝ}

/-- An entry on the diagonal: four squares with signs. -/
theorem approx_diagonal (ha : Approx 4 grain a r₁) (hb : Approx 4 grain b r₂)
    (hc : Approx 4 grain c r₃) (hd : Approx 4 grain d r₄) :
    Approx 16 (7 * grain) (a - b - c + d) (r₁ - r₂ - r₃ + r₄) ∧
      Approx 16 (7 * grain) (-a + b - c + d) (-r₁ + r₂ - r₃ + r₄) ∧
      Approx 16 (7 * grain) (-a - b + c + d) (-r₁ - r₂ + r₃ + r₄) := by
  have hgrain := grain_pos
  have hsmall : grain ≤ 1 := by norm_num [grain]
  have hminus := (ha.sub hb (by linarith)).sub hc (by linarith)
  have hplus := (ha.neg.add hb (by linarith)).sub hc (by linarith)
  have hlast := (ha.neg.sub hb (by linarith)).add hc (by linarith)
  refine ⟨(hminus.add hd ?_).mono ?_ ?_, (hplus.add hd ?_).mono ?_ ?_,
    (hlast.add hd ?_).mono ?_ ?_⟩
  all_goals linarith

/-- The rotated vector is computed with small errors. -/
theorem Quat.Moderate.apply_near {q : Quat Float} (hq : q.Moderate) {v : Vec3 Float}
    (hv : v.Approx (101 / 100) 0 v.value) :
    (q.apply v).Approx 50 (30 * grain) (Quat.apply (Vec4.value q) v.value) := by
  have hx2 := approx_product hq.x hq.x
  have hy2 := approx_product hq.y hq.y
  have hz2 := approx_product hq.z hq.z
  have hw2 := approx_product hq.w hq.w
  have hxy := approx_product hq.x hq.y
  have hzw := approx_product hq.z hq.w
  have hxz := approx_product hq.x hq.z
  have hyw := approx_product hq.y hq.w
  have hyz := approx_product hq.y hq.z
  have hxw := approx_product hq.x hq.w
  obtain ⟨hfirst, hsecond, hthird⟩ := approx_diagonal hx2 hy2 hz2 hw2
  have hrow {row : Vec3 Float} {exact : Vec3 ℝ} (h : row.Approx 16 (7 * grain) exact) :
      Approx 50 (30 * grain) (row.dot v) (exact.dot v.value) := by
    refine (h.dot hv ?_).mono ?_ ?_
    all_goals norm_num [grain]
  refine ⟨hrow ⟨hfirst, ?_, ?_⟩, hrow ⟨?_, hsecond, ?_⟩, hrow ⟨?_, ?_, hthird⟩⟩
  · exact approx_twice (approx_difference hxy hzw)
  · exact approx_twice (approx_sum hxz hyw)
  · exact approx_twice (approx_sum hxy hzw)
  · exact approx_twice (approx_difference hyz hxw)
  · exact approx_twice (approx_difference hxz hyw)
  · exact approx_twice (approx_sum hyz hxw)

end Apply

section Angle

theorem toReal_half : toReal (0.5 : Float) = 1 / 2 := by
  have hvalue : toReal (0.5 : Float) = (4503599627370496 : ℕ) * 2 ^ (-53 : ℤ) := rfl
  rw [hvalue]
  norm_num

variable {angle : Float} (h : Approx (5 / 4) 0 angle (toReal angle))

include h

theorem half_angle_near (hnonneg : 0 ≤ toReal angle) :
    (angle / 2.0).isFinite = true ∧ 0 ≤ toReal (angle / 2.0) ∧
      toReal (angle / 2.0) ≤ toReal angle / 2 + grain := by
  have hhalf := h.div rfl toReal_two (by norm_num) (by norm_num)
  have hnearest := @div_nearest angle 2.0 h.finite rfl (by rw [toReal_two]; norm_num)
  have hpos : 0 ≤ toReal angle / toReal 2.0 := by
    rw [toReal_two]
    positivity
  refine ⟨hhalf.finite, hnearest.nonneg hhalf.finite hpos, ?_⟩
  have hhigh := (abs_le.mp hhalf.error).2
  linarith

/-- For small angles the factor comes from the start of a series. -/
theorem series_near :
    (0.5 - angle * angle / 48.0 + angle * angle * (angle * angle) / 3840.0).isFinite = true ∧
      |toReal (0.5 - angle * angle / 48.0 + angle * angle * (angle * angle) / 3840.0)| ≤ 1 := by
  have hlow : toReal (48.0 : Float) = 48 := by
    have hvalue : toReal (48.0 : Float) = (6755399441055744 : ℕ) * 2 ^ (-47 : ℤ) := rfl
    rw [hvalue]
    norm_num
  have hhigh : toReal (3840.0 : Float) = 3840 := by
    have hvalue : toReal (3840.0 : Float) = (8444249301319680 : ℕ) * 2 ^ (-41 : ℤ) := rfl
    rw [hvalue]
    norm_num
  have hone : Approx (1 / 2) 0 0.5 (1 / 2) := .literal rfl toReal_half (by norm_num)
  have hsquare := h.mul h (by norm_num)
  have hfourth := hsquare.mul hsquare (by norm_num [grain])
  have hsecond := hsquare.div rfl hlow (by norm_num) (by norm_num [grain])
  have hthird := hfourth.div rfl hhigh (by norm_num) (by norm_num [grain])
  have hsum := (hone.sub hsecond (by norm_num [grain])).add hthird (by norm_num [grain])
  refine ⟨hsum.finite, hsum.abs_le.trans ?_⟩
  norm_num [grain]

/-- For other angles the factor is about half the ratio of a sine to its angle. -/
theorem quotient_near [Libm] (hlibm : Libm.Accurate) (hlarge : ¬ angle ≤ 1e-3) :
    (Libm.sin (angle / 2.0) / angle).isFinite = true ∧
      |toReal (Libm.sin (angle / 2.0) / angle)| ≤ 1 := by
  have hliteral : toReal (1e-3 : Float) = (4611686018427388 : ℕ) * 2 ^ (-62 : ℤ) := rfl
  rw [le_iff_toReal h.finite rfl, not_le, hliteral] at hlarge
  have hpos : 1 / 1024 < toReal angle := by
    refine lt_trans ?_ hlarge
    norm_num
  have hnonneg : 0 ≤ toReal angle := le_trans (by norm_num) hpos.le
  obtain ⟨hfinite, hhalf, hle⟩ := half_angle_near h hnonneg
  have hmost : toReal angle ≤ 5 / 4 := (le_abs_self _).trans h.size
  have hsmall : |toReal (angle / 2.0)| ≤ 1 := by
    rw [abs_of_nonneg hhalf]
    norm_num [grain] at hle
    linarith
  have hsin := hlibm.sin _ hfinite hsmall
  have hbelow : Real.sin (toReal (angle / 2.0)) ≤ toReal (angle / 2.0) := Real.sin_le hhalf
  have habove : 0 ≤ Real.sin (toReal (angle / 2.0)) := by
    apply Real.sin_nonneg_of_nonneg_of_le_pi hhalf
    exact ((le_abs_self _).trans hsmall).trans (by linarith [Real.pi_gt_three])
  have herror := abs_le.mp hsin.error
  have hratio : |toReal (Libm.sin (angle / 2.0)) / toReal angle| ≤ 6 / 10 := by
    have hfar : 0 < toReal angle := lt_trans (by norm_num) hpos
    rw [abs_div, abs_of_pos hfar, div_le_iff₀ hfar, abs_le]
    norm_num [grain] at herror hle hpos ⊢
    constructor
    · linarith
    · linarith
  have hnearest := div_nearest hsin.finite h.finite (by linarith)
  have hquotient := hnearest.isFinite_of_moderate (hratio.trans (by norm_num))
  have hnear := hnearest.near_small hquotient
  refine ⟨hquotient, ?_⟩
  have hsum := abs_add_le (toReal (Libm.sin (angle / 2.0) / angle) -
    toReal (Libm.sin (angle / 2.0)) / toReal angle)
    (toReal (Libm.sin (angle / 2.0)) / toReal angle)
  rw [sub_add_cancel] at hsum
  norm_num at hnear hratio ⊢
  linarith

end Angle

section RotationVector

/-- A rotation vector of at most about seventy degrees. -/
structure Vec3.Moderate (r : Vec3 Float) : Prop where
  finite : r.IsFinite
  within : r.Within (13 / 10)
  short : r.value.dot r.value ≤ 3 / 2

variable [Libm] {r : Vec3 Float}

theorem angle_near (hr : r.Moderate) :
    Approx (5 / 4) 0 r.norm (toReal r.norm) ∧ 0 ≤ toReal r.norm := by
  have hfinite := Vec3.norm_isFinite hr.finite (hr.within.mono (by norm_num))
  obtain ⟨-, hnonneg, hdot⟩ := Vec3.dot_self_near (Vec3.isFinite_of_norm hfinite)
  have hroot := Vec3.norm_near_sqrt hfinite
  have hsquare : √(toReal (r.dot r)) ≤ 123 / 100 := by
    rw [Real.sqrt_le_left (by norm_num)]
    have hhigh := (abs_le.mp hdot).2
    have hshort := hr.short
    norm_num at hhigh ⊢
    linarith
  refine ⟨Approx.exact hroot.finite ?_, hroot.nonneg⟩
  have hhigh := (abs_le.mp hroot.near).2
  rw [abs_of_nonneg hroot.nonneg]
  norm_num at hhigh ⊢
  linarith

/-- A moderate rotation vector has a moderate quaternion. -/
theorem Quat.moderate_of_rotationVector (hlibm : Libm.Accurate) (hr : r.Moderate) :
    (ofRotationVector r).Moderate := by
  obtain ⟨hangle, hnonneg⟩ := angle_near hr
  obtain ⟨hfinite, hhalf, hle⟩ := half_angle_near hangle hnonneg
  have hmost : toReal r.norm ≤ 5 / 4 := (le_abs_self _).trans hangle.size
  have hsmall : toReal (r.norm / 2.0) ≤ 63 / 100 := by
    norm_num [grain] at hle
    linarith
  obtain ⟨s, hs, hsize, hquaternion⟩ : ∃ s : Float, s.isFinite = true ∧ |toReal s| ≤ 1 ∧
      ofRotationVector r = ⟨s * r.x, s * r.y, s * r.z, Libm.cos (r.norm / 2.0)⟩ := by
    refine ⟨if r.norm ≤ 1e-3 then 0.5 - r.norm * r.norm / 48.0 +
      r.norm * r.norm * (r.norm * r.norm) / 3840.0 else Libm.sin (r.norm / 2.0) / r.norm,
      ?_, ?_, rfl⟩
    · split
      · exact (series_near hangle).1
      · exact (quotient_near hangle hlibm ‹_›).1
    · split
      · exact (series_near hangle).2
      · exact (quotient_near hangle hlibm ‹_›).2
  have hfactor := Approx.exact hs hsize
  have hcomponent {x : Float} (hx : x.isFinite = true) (hwithin : |toReal x| ≤ 13 / 10) :
      Approx 2 0 (s * x) (toReal (s * x)) := by
    apply (hfactor.mul (Approx.exact hx hwithin) (by norm_num)).forget
    norm_num [grain]
  -- half the angle is so small that its cosine stays above three quarters
  have hcos := hlibm.cos _ hfinite (by rw [abs_of_nonneg hhalf]; linarith)
  have hlower : 1 - toReal (r.norm / 2.0) ^ 2 / 2 ≤ Real.cos (toReal (r.norm / 2.0)) :=
    Real.one_sub_sq_div_two_le_cos
  have herror := abs_le.mp hcos.error
  rw [hquaternion]
  refine ⟨hcomponent hr.finite.x hr.within.x, hcomponent hr.finite.y hr.within.y,
    hcomponent hr.finite.z hr.within.z, ?_, ?_⟩
  · apply hcos.forget
    norm_num [grain]
  · norm_num [grain] at herror ⊢
    nlinarith

end RotationVector

namespace Turtle

theorem radians_near [Libm] {degrees : Float} (h : degrees.isFinite = true)
    (hsize : |toReal degrees| ≤ 64) :
    Approx (6 / 5) 0 (radians degrees) (toReal (radians degrees)) := by
  have hone : toReal (3.141592653589793 / 180.0 : Float) =
      (5030569068109113 : ℕ) * 2 ^ (-58 : ℤ) := rfl
  have hdegree : Approx (176 / 10000) 0 (3.141592653589793 / 180.0 : Float)
      (toReal (3.141592653589793 / 180.0 : Float)) := by
    apply Approx.exact rfl
    rw [hone]
    norm_num
  apply ((Approx.exact h hsize).mul hdegree (by norm_num)).forget
  norm_num [grain]

theorem moderate_scale {axis : Vec3 Float} (haxis : axis.NearUnit) {angle : Float}
    (hangle : Approx (6 / 5) 0 angle (toReal angle)) : (axis.scale angle).Moderate := by
  have hscaled := haxis.approx.scale hangle (by norm_num)
  refine ⟨hscaled.isFinite, hscaled.within.mono (by norm_num [grain]), ?_⟩
  have hchange := (abs_le.mp hscaled.dot_self_near).2
  have hlength := (abs_le.mp haxis.length).2
  have hsquare : toReal angle ^ 2 ≤ (6 / 5) ^ 2 := by
    rw [← sq_abs]
    exact pow_le_pow_left₀ (abs_nonneg _) hangle.size 2
  have hlong : toReal angle ^ 2 * axis.value.dot axis.value ≤ (6 / 5) ^ 2 * (1 + 1 / 2 ^ 30) := by
    apply mul_le_mul hsquare _ (Vec3.dot_self_nonneg _) (by norm_num)
    linarith
  rw [Vec3.scale_dot_scale] at hchange
  norm_num [grain] at hchange hlong ⊢
  linarith

/-- A vector of length one that was turned by a moderate quaternion is far from short. -/
theorem fair_of_moderate {q : Quat Float} (hq : q.Moderate) {v : Vec3 Float} (hv : v.NearUnit) :
    (q.apply v).Fair := by
  have hnear := hq.apply_near hv.approx
  refine ⟨hnear.isFinite, hnear.within.mono (by norm_num [grain]), ?_⟩
  have hchange := (abs_le.mp hnear.dot_self_near).1
  have hlength := (abs_le.mp hv.length).1
  have hscalar : 9 / 16 ≤ (Vec4.value q).dot (Vec4.value q) := by
    have hw := hq.turns
    have hx := sq_nonneg (toReal q.x)
    have hy := sq_nonneg (toReal q.y)
    have hz := sq_nonneg (toReal q.z)
    simp only [Vec4.dot, Vec4.value]
    nlinarith
  have hfourth : (9 / 16) ^ 2 ≤ (Vec4.value q).dot (Vec4.value q) ^ 2 :=
    pow_le_pow_left₀ (by norm_num) hscalar 2
  have hexact : (9 / 16) ^ 2 * (1 - 1 / 2 ^ 30) ≤
      (Quat.apply (Vec4.value q) v.value).dot (Quat.apply (Vec4.value q) v.value) := by
    rw [Quat.apply_dot_apply]
    apply mul_le_mul hfourth _ (by norm_num) (sq_nonneg _)
    linarith
  norm_num [grain] at hchange hexact ⊢
  linarith

/-- A turn by a moderate angle about any axis that is not short gives another direction. -/
theorem exists_turned?_near [Libm] (hlibm : Libm.Accurate) {axis v : Vec3 Float}
    (haxis : axis.Fair) (hv : v.NearUnit) {degrees : Float} (hdegrees : degrees.isFinite = true)
    (hmost : |toReal degrees| ≤ 64) : ∃ d, turned? axis degrees v = some d := by
  obtain ⟨unit, hunit, hnear⟩ := haxis.exists_unit?
  have hrotation := moderate_scale hnear (radians_near hdegrees hmost)
  have hfair := fair_of_moderate (Quat.moderate_of_rotationVector hlibm hrotation) hv
  obtain ⟨d, hd, -⟩ := hfair.exists_unit?
  refine ⟨d, ?_⟩
  simp only [turned?, hunit, bind, Option.bind]
  exact hd

end Turtle

end Meristem
