import Meristem.Proofs.Exact.Rotation

/-!
The shortest arc between any two vectors in exact arithmetic. It exists unless one of the vectors is
too short to have a direction, and is a rotation of no more than half a turn. Directions whose sum
is too short to have one are the exception: there the arc is a half turn about an axis at right
angles to the first, and misses the second by less than that length.
-/

namespace Meristem
namespace Quat

/-- How a quaternion turns the direction `a` towards the direction `b`. The scalar part is the
cosine of half the angle, so the larger it is, the shorter is the way. -/
structure IsShortestArc (a b : Vec3 ℝ) (q : Quat ℝ) : Prop where
  length : q.norm = 1
  scalar : 0 ≤ q.w
  /-- Directions that are not all but opposite: the first goes onto the second, about an axis at
  right angles to both. -/
  onto : 1 / 10 ^ 9 ≤ (a + b).norm → q.apply a = b ∧ q.xyz.dot a = 0 ∧ q.xyz.dot b = 0
  /-- Directions that are all but opposite: a half turn onto the opposite of the first. -/
  halfTurn : (a + b).norm < 1 / 10 ^ 9 →
    q.w = 0 ∧ q.xyz.dot a = 0 ∧ q.apply a = a.opposite ∧ (a.opposite - b).norm < 1 / 10 ^ 9
  /-- No rotation with the same end goes a shorter way. -/
  shortest : ∀ p : Quat ℝ, p.norm = 1 → p.apply a = q.apply a → |p.w| ≤ q.w

theorem isUnit_of_norm {q : Quat ℝ} (h : q.norm = 1) : q.IsUnit := by
  have hroot : √(q.dot q) = 1 := h
  exact Real.sqrt_eq_one.mp hroot

/-- How far a rotation turns a direction, by the angle and by how far the axis leans to it. -/
theorem dot_apply {q : Quat ℝ} {a : Vec3 ℝ} (hq : q.IsUnit) (ha : a.IsUnit) :
    a.dot (q.apply a) = 2 * q.w ^ 2 - 1 + 2 * q.xyz.dot a ^ 2 := by
  have hparts : q.xyz.dot q.xyz + q.w ^ 2 = 1 := by
    rw [← hq]
    simp only [Vec3.dot, Vec4.xyz, Vec4.dot]
    ring
  have hexpand : a.dot (q.apply a) =
      (q.w ^ 2 - q.xyz.dot q.xyz) * a.dot a + 2 * q.xyz.dot a ^ 2 := by
    have happly : q.apply a = apply ⟨q.xyz.x, q.xyz.y, q.xyz.z, q.w⟩ a := rfl
    rw [happly, apply_eq]
    simp only [Vec3.dot, Vec3.add_x, Vec3.add_y, Vec3.add_z, Vec3.scale, Vec3.cross]
    ring
  rw [hexpand, ha.dot_self]
  linear_combination -hparts

/-- A rotation about an axis at right angles to a direction goes the shortest way to its end. -/
theorem abs_w_le_of_apply_eq {p q : Quat ℝ} {a : Vec3 ℝ} (hp : p.IsUnit) (hq : q.IsUnit)
    (ha : a.IsUnit) (hright : q.xyz.dot a = 0) (hw : 0 ≤ q.w) (hend : p.apply a = q.apply a) :
    |p.w| ≤ q.w := by
  apply abs_le_of_sq_le_sq _ hw
  have hlong := dot_apply hp ha
  have hshort := dot_apply hq ha
  rw [hright] at hshort
  rw [hend, hshort] at hlong
  linarith [sq_nonneg (p.xyz.dot a)]

theorem isShortestArc_half_turn {a b axis : Vec3 ℝ} (ha : a.IsUnit) (haxis : axis.IsUnit)
    (hright : axis.dot a = 0) (hshort : (a + b).norm < 1 / 10 ^ 9) :
    IsShortestArc a b ⟨axis.x, axis.y, axis.z, 0⟩ where
  length := (isUnit_half_turn haxis).norm_eq
  scalar := le_rfl
  onto := fun hlong => absurd hshort (not_lt.mpr hlong)
  halfTurn := fun _ =>
    ⟨rfl, hright, apply_half_turn haxis hright, (Vec3.opposite_sub_norm a b).trans_lt hshort⟩
  shortest := fun _ hp hend =>
    abs_w_le_of_apply_eq (isUnit_of_norm hp) (isUnit_half_turn haxis) ha hright le_rfl hend

theorem isShortestArc_twice {a b half : Vec3 ℝ} (ha : a.IsUnit) (hhalf : half.IsUnit)
    (hlong : 1 / 10 ^ 9 ≤ (a + b).norm) (hlength : 2 * a.dot half = (a + b).norm)
    (hsum : half.scale (2 * a.dot half) = a + b) :
    IsShortestArc a b ⟨(a.cross half).x, (a.cross half).y, (a.cross half).z, a.dot half⟩ := by
  have hscalar : 0 ≤ a.dot half := by linarith [(a + b).norm_nonneg]
  have hsecond : b = half.scale (2 * a.dot half) - a := by rw [hsum, Vec3.add_sub_self]
  have hright : (a.cross half).dot b = 0 := by
    rw [hsecond]
    simp only [Vec3.dot, Vec3.cross, Vec3.scale, Vec3.sub_x, Vec3.sub_y, Vec3.sub_z]
    ring
  exact {
    length := (isUnit_twice ha hhalf).norm_eq
    scalar := hscalar
    onto := fun _ =>
      ⟨(apply_twice ha hhalf).trans hsecond.symm, Vec3.cross_dot_left a half, hright⟩
    halfTurn := fun hshort => absurd hshort (not_lt.mpr hlong)
    shortest := fun _ hp hend =>
      abs_w_le_of_apply_eq (isUnit_of_norm hp) (isUnit_twice ha hhalf) ha
        (Vec3.cross_dot_left a half) hscalar hend }

/-- Between two directions of length one there is a shortest arc. -/
theorem exists_isShortestArc {a b : Vec3 ℝ} (ha : a.IsUnit) (hb : b.IsUnit) :
    ∃ q, twiceTo? a (a + b) = some q ∧ IsShortestArc a b q := by
  by_cases hshort : (a + b).norm < 1 / 10 ^ 9
  · obtain ⟨axis, harc, hunit, hright⟩ := exists_twiceTo?_short ha hshort
    exact ⟨_, harc, isShortestArc_half_turn ha hunit hright hshort⟩
  · rw [not_lt] at hshort
    obtain ⟨half, harc, hunit, hlength, hsum⟩ := exists_twiceTo?_long ha hb hshort
    exact ⟨_, harc, isShortestArc_twice ha hunit hshort hlength hsum⟩

/-- The arc between two vectors is the one between their directions. -/
theorem between?_directions {src dst : Vec3 ℝ} (hsrc : 1 / 10 ^ 9 ≤ src.norm)
    (hdst : 1 / 10 ^ 9 ≤ dst.norm) :
    between? src dst = twiceTo? (src.divide src.norm)
      (src.divide src.norm + dst.divide dst.norm) := by
  simp only [between?, Vec3.unit?_of_le hsrc, Vec3.unit?_of_le hdst, bind, Option.bind]

theorem between?_of_short {src dst : Vec3 ℝ}
    (h : src.norm < 1 / 10 ^ 9 ∨ dst.norm < 1 / 10 ^ 9) : between? src dst = none := by
  rcases h with hsrc | hdst
  · simp only [between?, Vec3.unit?_eq_none_iff.mpr hsrc, bind, Option.bind]
  · simp only [between?, Vec3.unit?_eq_none_iff.mpr hdst, bind, Option.bind]
    cases src.unit? with
    | none => rfl
    | some a => rfl

/-- In exact arithmetic two vectors have a shortest arc unless one of them is too short, and it is
one. The axis that stands in for opposite directions is there for every direction. -/
theorem between?_isShortestArc (src dst : Vec3 ℝ) :
    (between? src dst = none ↔ src.norm < 1 / 10 ^ 9 ∨ dst.norm < 1 / 10 ^ 9) ∧
      (∀ q, between? src dst = some q →
        IsShortestArc (src.divide src.norm) (dst.divide dst.norm) q) ∧
      ∀ a : Vec3 ℝ, a.norm = 1 →
        ∃ axis, halfTurnAxis? a = some axis ∧ axis.norm = 1 ∧ axis.dot a = 0 := by
  have haxes : ∀ a : Vec3 ℝ, a.norm = 1 →
      ∃ axis, halfTurnAxis? a = some axis ∧ axis.norm = 1 ∧ axis.dot a = 0 := by
    intro a ha
    obtain ⟨axis, haxis, hunit, hright⟩ := exists_halfTurnAxis? (Vec3.isUnit_iff_norm.mpr ha)
    exact ⟨axis, haxis, Vec3.isUnit_iff_norm.mp hunit, hright⟩
  by_cases hshort : src.norm < 1 / 10 ^ 9 ∨ dst.norm < 1 / 10 ^ 9
  · have hnone := between?_of_short hshort
    refine ⟨iff_of_true hnone hshort, ?_, haxes⟩
    intro q hq
    rw [hnone] at hq
    cases hq
  · obtain ⟨hsrc, hdst⟩ := not_or.mp hshort
    rw [not_lt] at hsrc hdst
    obtain ⟨q, harc, hshortest⟩ :=
      exists_isShortestArc (Vec3.isUnit_direction hsrc) (Vec3.isUnit_direction hdst)
    rw [between?_directions hsrc hdst, harc]
    refine ⟨iff_of_false (Option.some_ne_none q) hshort, ?_, haxes⟩
    intro p hp
    obtain rfl : q = p := Option.some.inj hp
    exact hshortest

/-- Straight back along world X, where the first choice of an axis has no length. -/
theorem between?_back_along_x :
    ∃ q, between? ⟨2, 0, 0⟩ ⟨-3, 0, 0⟩ = some q ∧ IsShortestArc Vec3.worldX ⟨-1, 0, 0⟩ q ∧
      q.apply Vec3.worldX = Vec3.worldX.opposite := by
  have hsrc : Vec3.norm (⟨2, 0, 0⟩ : Vec3 ℝ) = 2 :=
    Vec3.norm_eq_of_sq (by norm_num) (by norm_num [Vec3.dot])
  have hdst : Vec3.norm (⟨-3, 0, 0⟩ : Vec3 ℝ) = 3 :=
    Vec3.norm_eq_of_sq (by norm_num) (by norm_num [Vec3.dot])
  obtain ⟨hexists, hshortest, -⟩ := between?_isShortestArc ⟨2, 0, 0⟩ ⟨-3, 0, 0⟩
  rw [hsrc, hdst] at hexists hshortest
  obtain ⟨q, hq⟩ := Option.ne_none_iff_exists'.mp (hexists.not.mpr (by norm_num))
  have hfirst : Vec3.divide (⟨2, 0, 0⟩ : Vec3 ℝ) 2 = Vec3.worldX := by
    simp [Vec3.divide, Vec3.worldX]
  have hsecond : Vec3.divide (⟨-3, 0, 0⟩ : Vec3 ℝ) 3 = ⟨-1, 0, 0⟩ := by
    norm_num [Vec3.divide]
  have harc := hshortest q hq
  rw [hfirst, hsecond] at harc
  have hsum : (Vec3.worldX + ⟨-1, 0, 0⟩ : Vec3 ℝ).norm < 1 / 10 ^ 9 := by
    simp [Vec3.norm_real, Vec3.dot, Vec3.worldX]
  exact ⟨q, hq, harc, (harc.halfTurn hsum).2.2.1⟩

end Quat
end Meristem
