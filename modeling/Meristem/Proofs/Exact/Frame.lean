import Meristem.Proofs.Exact.Vector
import Meristem.Frame

/-!
The frame of a viewer in exact arithmetic. Two thresholds could leave a gap: the test for looking
along the up direction, and the choice of a world axis to stand in for it. They leave none. Whatever
direction is held upright in the end spans a fair area with the one that is looked in, so the cross
product of the two never comes near the length below which a vector has no direction.
-/

namespace Meristem
namespace Frame

theorem alongSameLine_iff {a b : Vec3 ℝ} :
    alongSameLine a b = true ↔ |(|a.dot b| - 1)| ≤ 1 / 10 ^ 8 + 1 / 10 ^ 5 := by
  simp [alongSameLine, isUnitSize, Arith.abs]

theorem standInAxis_real (z : ℝ) :
    standInAxis z = if |z| < 9 / 10 then Vec3.worldZ else Vec3.worldX := by
  simp [standInAxis, Arith.abs]

/-- Directions that do not count as running along the same line span a fair area. -/
theorem dot_sq_le_of_not_alongSameLine {a b : Vec3 ℝ} (ha : a.IsUnit) (hb : b.IsUnit)
    (h : alongSameLine a b = false) : a.dot b ^ 2 ≤ 1 - 1 / 10 ^ 5 := by
  have harea : 0 ≤ 1 - a.dot b ^ 2 := by
    have hcross := Vec3.cross_dot_cross a b
    rw [ha.dot_self, hb.dot_self, one_mul] at hcross
    rw [← hcross]
    exact Vec3.dot_self_nonneg _
  have hfar : 1 / 10 ^ 8 + 1 / 10 ^ 5 < |(|a.dot b| - 1)| := by
    rw [← not_le, ← alongSameLine_iff, h]
    exact Bool.false_ne_true
  have hsquare : a.dot b ^ 2 = |a.dot b| * |a.dot b| := by rw [← sq_abs, sq]
  have hnonneg : 0 ≤ |a.dot b| := abs_nonneg _
  have hle : |a.dot b| ≤ 1 := by nlinarith
  rw [abs_sub_comm, abs_of_nonneg (by linarith)] at hfar
  rw [hsquare]
  norm_num at hfar ⊢
  nlinarith

theorem isUnit_standInAxis (z : ℝ) : (standInAxis z).IsUnit := by
  rw [standInAxis_real]
  split
  · exact Vec3.isUnit_worldZ
  · exact Vec3.isUnit_worldX

/-- A world axis that stands in keeps well off the direction that is looked in. -/
theorem dot_standInAxis_sq_le {forward : Vec3 ℝ} (h : forward.IsUnit) :
    forward.dot (standInAxis forward.z) ^ 2 ≤ 81 / 100 := by
  have hlength : forward.x ^ 2 + forward.y ^ 2 + forward.z ^ 2 = 1 := by
    rw [← h.dot_self, Vec3.dot]
    ring
  rw [standInAxis_real]
  split
  · rename_i hlow
    have hdot : forward.dot Vec3.worldZ = forward.z := by simp [Vec3.dot, Vec3.worldZ]
    rw [hdot, ← sq_abs]
    nlinarith [abs_nonneg forward.z]
  · rename_i hhigh
    have hdot : forward.dot Vec3.worldX = forward.x := by simp [Vec3.dot, Vec3.worldX]
    rw [not_lt] at hhigh
    rw [hdot]
    nlinarith [sq_abs forward.z, sq_nonneg forward.y]

/-- The direction that is held upright spans a fair area with any direction that is looked in. -/
theorem exists_upright {forward reference : Vec3 ℝ} (h : forward.IsUnit)
    (hreference : reference.IsUnit) :
    (uprightFor forward reference).IsUnit ∧
      forward.dot (uprightFor forward reference) ^ 2 ≤ 1 - 1 / 10 ^ 5 := by
  unfold uprightFor
  cases hline : alongSameLine forward reference with
  | false => exact ⟨hreference, dot_sq_le_of_not_alongSameLine h hreference hline⟩
  | true =>
      refine ⟨isUnit_standInAxis forward.z, (dot_standInAxis_sq_le h).trans ?_⟩
      norm_num

/-- Both axes have length one and are at right angles to each other and to the direction that is
looked in; the second goes over the first by the right-hand rule. -/
structure IsOrthonormal (forward : Vec3 ℝ) (frame : Frame ℝ) : Prop where
  tangent : frame.tangent.norm = 1
  bitangent : frame.bitangent.norm = 1
  tangent_bitangent : frame.tangent.dot frame.bitangent = 0
  tangent_forward : frame.tangent.dot forward = 0
  bitangent_forward : frame.bitangent.dot forward = 0
  hand : frame.bitangent = frame.tangent.cross forward

/-- The first axis is level and the second leans to the side of `upright`. -/
structure HoldsUpright (upright : Vec3 ℝ) (frame : Frame ℝ) : Prop where
  level : frame.tangent.dot upright = 0
  rises : 0 < frame.bitangent.dot upright

/-- How far the second axis rises is the area that the two directions span. -/
theorem cross_cross_dot (forward upright : Vec3 ℝ) :
    ((forward.cross upright).cross forward).dot upright =
      (forward.cross upright).dot (forward.cross upright) := by
  simp only [Vec3.dot, Vec3.cross]
  ring

theorem exists_along? {forward upright : Vec3 ℝ} (hforward : forward.IsUnit)
    (hupright : upright.IsUnit) (hwide : forward.dot upright ^ 2 ≤ 1 - 1 / 10 ^ 5) :
    ∃ frame, along? forward upright = some frame ∧ frame.IsOrthonormal forward ∧
      frame.HoldsUpright upright := by
  obtain ⟨side, hside⟩ : ∃ side, forward.cross upright = side := ⟨_, rfl⟩
  have harea : 1 / 10 ^ 5 ≤ side.dot side := by
    rw [← hside, Vec3.cross_dot_cross, hforward.dot_self, hupright.dot_self]
    linarith
  obtain ⟨hunit, hlength⟩ := Vec3.exists_unit? (v := side) (by norm_num at harea ⊢; linarith)
  have hpos : 0 < side.norm := by
    rw [Vec3.norm_real]
    exact Real.sqrt_pos.mpr (lt_of_lt_of_le (by norm_num) harea)
  obtain ⟨tangent, htangent⟩ : ∃ tangent, side.divide side.norm = tangent := ⟨_, rfl⟩
  rw [htangent] at hunit hlength
  have hforwards : tangent.dot forward = 0 := by
    rw [← htangent, ← hside, Vec3.divide_dot, Vec3.cross_dot_left, zero_div]
  have hlevel : tangent.dot upright = 0 := by
    rw [← htangent, ← hside, Vec3.divide_dot, Vec3.cross_dot_right, zero_div]
  have hrises : (tangent.cross forward).dot upright = side.dot side / side.norm := by
    rw [← htangent, Vec3.divide_cross, Vec3.divide_dot]
    simp only [← hside, cross_cross_dot]
  have hbitangent : (tangent.cross forward).IsUnit := by
    rw [Vec3.IsUnit, Vec3.cross_dot_cross, hforwards, hlength.dot_self, hforward.dot_self]
    norm_num
  refine ⟨⟨tangent, tangent.cross forward⟩, ?_, ?_, ?_⟩
  · simp only [along?, hside, hunit, bind, Option.bind]
  · exact {
      tangent := Vec3.isUnit_iff_norm.mp hlength
      bitangent := Vec3.isUnit_iff_norm.mp hbitangent
      tangent_bitangent := (Vec3.dot_comm _ _).trans (Vec3.cross_dot_left _ _)
      tangent_forward := hforwards
      bitangent_forward := Vec3.cross_dot_right _ _
      hand := rfl }
  · refine ⟨hlevel, ?_⟩
    rw [hrises]
    exact div_pos (lt_of_lt_of_le (by norm_num) harea) hpos

/-- Whatever is looked at, a frame exists, and holds upright what it should. -/
theorem exists_lookAt?_of_le {position target up : Vec3 ℝ}
    (hforward : 1 / 10 ^ 9 ≤ (target - position).norm) (hup : 1 / 10 ^ 9 ≤ up.norm) :
    ∃ frame, lookAt? position target up = some frame ∧
      frame.IsOrthonormal ((target - position).divide (target - position).norm) ∧
      frame.HoldsUpright (uprightFor ((target - position).divide (target - position).norm)
        (up.divide up.norm)) := by
  have hlooks := Vec3.isUnit_direction hforward
  obtain ⟨hupright, hwide⟩ := exists_upright hlooks (Vec3.isUnit_direction hup)
  obtain ⟨frame, hframe, hholds⟩ := exists_along? hlooks hupright hwide
  refine ⟨frame, ?_, hholds⟩
  simp only [lookAt?, Vec3.unit?_of_le hforward, Vec3.unit?_of_le hup, bind, Option.bind]
  exact hframe

theorem lookAt?_of_short {position target up : Vec3 ℝ}
    (h : (target - position).norm < 1 / 10 ^ 9 ∨ up.norm < 1 / 10 ^ 9) :
    lookAt? position target up = none := by
  rcases h with hforward | hup
  · simp only [lookAt?, Vec3.unit?_eq_none_iff.mpr hforward, bind, Option.bind]
  · simp only [lookAt?, Vec3.unit?_eq_none_iff.mpr hup, bind, Option.bind]
    cases (target - position).unit? with
    | none => rfl
    | some forward => rfl

theorem lookAt?_eq_none_iff {position target up : Vec3 ℝ} :
    lookAt? position target up = none ↔
      (target - position).norm < 1 / 10 ^ 9 ∨ up.norm < 1 / 10 ^ 9 := by
  by_cases hshort : (target - position).norm < 1 / 10 ^ 9 ∨ up.norm < 1 / 10 ^ 9
  · exact iff_of_true (lookAt?_of_short hshort) hshort
  · obtain ⟨hforward, hup⟩ := not_or.mp hshort
    obtain ⟨frame, hframe, -⟩ := exists_lookAt?_of_le (not_lt.mp hforward) (not_lt.mp hup)
    rw [hframe]
    exact iff_of_false (Option.some_ne_none frame) hshort

/-- Only the directions count: where the viewer looks and where up is. -/
theorem lookAt?_congr {position target up position' target' up' : Vec3 ℝ}
    (hforward : (target' - position').unit? = (target - position).unit?)
    (hup : up'.unit? = up.unit?) : lookAt? position' target' up' = lookAt? position target up := by
  simp only [lookAt?, hforward, hup]

/-- Whichever way a turtle points, the frame it turns in exists. -/
theorem exists_lookAt? (position : Vec3 ℝ) {direction : Vec3 ℝ} (h : direction.IsUnit) :
    ∃ frame, lookAt? position (position + direction) = some frame ∧ frame.tangent.IsUnit ∧
      frame.bitangent.IsUnit := by
  have hahead : 1 / 10 ^ 9 ≤ (position + direction - position).norm := by
    norm_num [Vec3.add_sub_self, Vec3.isUnit_iff_norm.mp h]
  have hup : 1 / 10 ^ 9 ≤ Vec3.norm (Vec3.up : Vec3 ℝ) := by
    norm_num [Vec3.isUnit_iff_norm.mp Vec3.isUnit_up]
  obtain ⟨frame, hframe, haxes, -⟩ := exists_lookAt?_of_le hahead hup
  exact ⟨frame, hframe, Vec3.isUnit_iff_norm.mpr haxes.tangent,
    Vec3.isUnit_iff_norm.mpr haxes.bitangent⟩

theorem HoldsUpright.of_direction {up : Vec3 ℝ} {frame : Frame ℝ} (hup : 0 < up.norm)
    (h : frame.HoldsUpright (up.divide up.norm)) : frame.HoldsUpright up := by
  obtain ⟨hlevel, hrises⟩ := h
  rw [Vec3.dot_divide_right] at hlevel hrises
  constructor
  · simpa [hup.ne'] using hlevel
  · exact (div_pos_iff_of_pos_right hup).mp hrises

/-- What the frame that looks from one point to another in the direction `forward` is like. -/
structure Faces (position target up forward : Vec3 ℝ) (frame : Frame ℝ) : Prop where
  orthonormal : frame.IsOrthonormal forward
  /-- Off the line of the up direction that direction is held upright, -/
  upright : 1 / 10 ^ 8 + 1 / 10 ^ 5 < |(|forward.dot (up.divide up.norm)| - 1)| →
    frame.HoldsUpright up
  /-- and along it the world axis that stands in. -/
  standIn : |(|forward.dot (up.divide up.norm)| - 1)| ≤ 1 / 10 ^ 8 + 1 / 10 ^ 5 →
    frame.HoldsUpright (standInAxis forward.z)
  moved : ∀ offset, lookAt? (position + offset) (target + offset) up = some frame
  nearer : ∀ s > 0, 1 / 10 ^ 9 ≤ ((target - position).scale s).norm →
    lookAt? position (position + (target - position).scale s) up = some frame
  stretched : ∀ s > 0, 1 / 10 ^ 9 ≤ (up.scale s).norm →
    lookAt? position target (up.scale s) = some frame

theorem faces_of_lookAt? {position target up : Vec3 ℝ} {frame : Frame ℝ}
    (h : lookAt? position target up = some frame) :
    Faces position target up ((target - position).divide (target - position).norm) frame := by
  have hlong : ¬((target - position).norm < 1 / 10 ^ 9 ∨ up.norm < 1 / 10 ^ 9) := by
    rw [← lookAt?_eq_none_iff, h]
    exact Option.some_ne_none frame
  obtain ⟨hforward, hup⟩ := not_or.mp hlong
  rw [not_lt] at hforward hup
  obtain ⟨found, hfound, haxes, hholds⟩ := exists_lookAt?_of_le hforward hup
  obtain rfl : found = frame := Option.some.inj (hfound.symm.trans h)
  refine ⟨haxes, ?_, ?_, ?_, ?_, ?_⟩
  · intro hoff
    rw [uprightFor, if_neg (alongSameLine_iff.not.mpr (not_le.mpr hoff))] at hholds
    exact hholds.of_direction (lt_of_lt_of_le (by norm_num) hup)
  · intro halong
    rwa [uprightFor, if_pos (alongSameLine_iff.mpr halong)] at hholds
  · intro offset
    rw [← h]
    exact lookAt?_congr (by rw [Vec3.add_sub_add]) rfl
  · intro s hs hscaled
    rw [← h]
    exact lookAt?_congr (by rw [Vec3.add_sub_self, Vec3.unit?_scale hs hforward hscaled]) rfl
  · intro s hs hscaled
    rw [← h]
    exact lookAt?_congr rfl (Vec3.unit?_scale hs hup hscaled)

/-- In exact arithmetic a frame exists unless there is no direction to look in or none to hold
upright, and it is orthonormal. The world axis that stands in spans an area with every direction, so
it is parallel to none. -/
theorem lookAt?_faces (position target up : Vec3 ℝ) :
    (lookAt? position target up = none ↔
        (target - position).norm < 1 / 10 ^ 9 ∨ up.norm < 1 / 10 ^ 9) ∧
      (∀ frame, lookAt? position target up = some frame →
        Faces position target up ((target - position).divide (target - position).norm) frame) ∧
      ∀ forward : Vec3 ℝ, forward.norm = 1 →
        standInAxis forward.z = (if |forward.z| < 9 / 10 then Vec3.worldZ else Vec3.worldX) ∧
          2 / 5 ≤ (forward.cross (standInAxis forward.z)).norm := by
  refine ⟨lookAt?_eq_none_iff, fun frame => faces_of_lookAt?, ?_⟩
  intro forward hforward
  refine ⟨standInAxis_real forward.z, ?_⟩
  have hunit : forward.IsUnit := Vec3.isUnit_iff_norm.mpr hforward
  have hoff := dot_standInAxis_sq_le hunit
  rw [Vec3.norm_real, Vec3.cross_dot_cross, hunit.dot_self,
    (isUnit_standInAxis forward.z).dot_self]
  apply Real.le_sqrt_of_sq_le
  linarith

/-- A view straight down a tilted up direction, from which world Z is as far as it can be. -/
theorem lookAt?_down_slope :
    ∃ frame, lookAt? ⟨1, 2, 3⟩ ⟨-2, -2, 3⟩ ⟨6, 8, 0⟩ = some frame ∧
      frame.IsOrthonormal ⟨-3 / 5, -4 / 5, 0⟩ ∧ frame.HoldsUpright Vec3.worldZ := by
  have hahead : (⟨-2, -2, 3⟩ - ⟨1, 2, 3⟩ : Vec3 ℝ) = ⟨-3, -4, 0⟩ := by
    apply Vec3.ext
    · norm_num
    · norm_num
    · norm_num
  have hlength : Vec3.norm (⟨-3, -4, 0⟩ : Vec3 ℝ) = 5 :=
    Vec3.norm_eq_of_sq (by norm_num) (by norm_num [Vec3.dot])
  have hup : Vec3.norm (⟨6, 8, 0⟩ : Vec3 ℝ) = 10 :=
    Vec3.norm_eq_of_sq (by norm_num) (by norm_num [Vec3.dot])
  have hforward : Vec3.divide (⟨-3, -4, 0⟩ : Vec3 ℝ) 5 = ⟨-3 / 5, -4 / 5, 0⟩ := by
    norm_num [Vec3.divide]
  obtain ⟨hexists, hfaces, hstand⟩ := lookAt?_faces ⟨1, 2, 3⟩ ⟨-2, -2, 3⟩ ⟨6, 8, 0⟩
  rw [hahead, hlength, hup] at hexists
  rw [hahead, hlength, hforward] at hfaces
  obtain ⟨frame, hframe⟩ := Option.ne_none_iff_exists'.mp (hexists.not.mpr (by norm_num))
  have hface := hfaces frame hframe
  have hupright := hface.standIn (by
    rw [hup]
    norm_num [Vec3.dot, Vec3.divide])
  have hlooks : Vec3.norm (⟨-3 / 5, -4 / 5, 0⟩ : Vec3 ℝ) = 1 :=
    Vec3.norm_eq_of_sq (by norm_num) (by norm_num [Vec3.dot])
  rw [(hstand _ hlooks).1] at hupright
  refine ⟨frame, hframe, hface.orthonormal, ?_⟩
  simpa using hupright

end Frame
end Meristem
