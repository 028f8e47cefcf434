import Meristem.Proofs.Rounded.Rotation

/-!
The frame a turtle of doubles turns in. Whenever the way from one point to another has a direction,
both axes of the frame that looks along it exist: the direction that is held upright is never so
near to it that their cross product is lost in rounding.
-/

namespace Meristem

deriving instance DecidableEq for Vec3

theorem Approx.abs {b e r : ℝ} {x : Float} (h : Approx b e x r) : Approx b e x.abs |r| := by
  obtain ⟨hfinite, hvalue⟩ := abs_exact h.finite
  refine ⟨hfinite, (abs_abs r).trans_le h.size, ?_⟩
  rw [hvalue]
  exact (abs_abs_sub_abs_le _ _).trans h.error

namespace Vec3

section Axes

theorem value_worldX : value worldX = worldX := by
  simp only [value, worldX, toReal_one, Arith.scientific_real]
  norm_num
  rfl

theorem value_worldZ : value worldZ = worldZ := by
  simp only [value, worldZ, toReal_one, Arith.scientific_real]
  norm_num
  rfl

theorem value_up : value up = up := by
  simp only [value, up, worldY, toReal_one, Arith.scientific_real]
  norm_num
  rfl

theorem nearUnit_of_isUnit {v : Vec3 Float} (hv : v.IsFinite) (h : v.value.IsUnit) :
    v.NearUnit := by
  refine ⟨hv, ?_⟩
  rw [h.dot_self, sub_self, abs_zero]
  norm_num

theorem nearUnit_worldX : NearUnit worldX := by
  apply nearUnit_of_isUnit ⟨rfl, rfl, rfl⟩
  rw [value_worldX]
  exact isUnit_worldX

theorem nearUnit_worldZ : NearUnit worldZ := by
  apply nearUnit_of_isUnit ⟨rfl, rfl, rfl⟩
  rw [value_worldZ]
  exact isUnit_worldZ

theorem nearUnit_up : NearUnit up := by
  apply nearUnit_of_isUnit ⟨rfl, rfl, rfl⟩
  rw [value_up]
  exact isUnit_up

/-- The direction of the way up is the way up itself. -/
theorem up_unit? [Libm] : (up : Vec3 Float).unit? = some up := by
  have hsame : (up : Vec3 Float).unit? = @unit? Float instScalarFloat up := rfl
  rw [hsame]
  decide +kernel

end Axes

/-- Small factors make a small product. -/
theorem abs_dot_le {p q : Vec3 ℝ} {a b : ℝ} (ha : 0 ≤ a) (hx : |p.x| ≤ a) (hy : |p.y| ≤ a)
    (hz : |p.z| ≤ a) (hqx : |q.x| ≤ b) (hqy : |q.y| ≤ b) (hqz : |q.z| ≤ b) :
    |p.dot q| ≤ 3 * (a * b) := by
  have hproduct {s t : ℝ} (hs : |s| ≤ a) (ht : |t| ≤ b) : |s * t| ≤ a * b := by
    rw [abs_mul]
    exact mul_le_mul hs ht (abs_nonneg _) ha
  rw [dot]
  refine (abs_add_three _ _ _).trans ?_
  linarith [hproduct hx hqx, hproduct hy hqy, hproduct hz hqz]

theorem length_mul_length {f u : Vec3 Float} (hf : f.NearUnit) (hu : u.NearUnit) :
    (1 - 1 / 2 ^ 30) * (1 - 1 / 2 ^ 30) ≤ f.value.dot f.value * u.value.dot u.value := by
  have hfirst := (abs_le.mp hf.length).1
  have hsecond := (abs_le.mp hu.length).1
  apply mul_le_mul
  · linarith
  · linarith
  · norm_num
  · linarith

/-- A cross product of directions that are not almost the same is not short, and its direction is at
right angles to the first up to a tiny error. -/
theorem exists_cross_unit? [Libm] {f u : Vec3 Float} (hf : f.NearUnit) (hu : u.NearUnit)
    (hwide : f.value.dot u.value ^ 2 ≤ 1 - 1 / 10 ^ 5) :
    ∃ t, (f.cross u).unit? = some t ∧ t.NearUnit ∧ |t.value.dot f.value| ≤ 1 / 2 ^ 20 := by
  have hcross := hf.approx.cross hu.approx (by norm_num [grain])
  have hlong : 8 / 10 ^ 6 ≤ (f.cross u).value.dot (f.cross u).value := by
    have hchange := (abs_le.mp hcross.dot_self_near).1
    have harea := length_mul_length hf hu
    rw [cross_dot_cross] at hchange
    norm_num [grain] at hchange harea hwide ⊢
    linarith
  have hfair : (f.cross u).Fair :=
    ⟨hcross.isFinite, hcross.within.mono (by norm_num [grain]), le_trans (by norm_num) hlong⟩
  obtain ⟨t, ht, hunit⟩ := hfair.exists_unit?
  obtain ⟨n, hdirects⟩ := directs_of_unit? ht
  refine ⟨t, ht, hunit, ?_⟩
  have hn : 1 / 400 ≤ n := by
    have hlength := (abs_le.mp hdirects.length).2
    have hpos := hdirects.long
    apply le_of_sq_le_sq _ (le_trans (by norm_num) hpos)
    norm_num at hlength hlong ⊢
    linarith
  have hpos : 0 < n := lt_of_lt_of_le (by norm_num) hn
  -- the exact product is at right angles to both factors, so only the two errors are left
  have hsplit : t.value.dot f.value = (t.value - (f.cross u).value.divide n).dot f.value +
      ((f.cross u).value - f.value.cross u.value).dot f.value / n := by
    have hright := cross_dot_left f.value u.value
    simp only [dot] at hright
    simp only [dot, sub_x, sub_y, sub_z, divide]
    field_simp
    linear_combination hright
  have hfirst : |(t.value - (f.cross u).value.divide n).dot f.value| ≤
      3 * (1 / 2 ^ 50 * (101 / 100)) := by
    apply abs_dot_le (by norm_num)
    · exact hdirects.near.x.error
    · exact hdirects.near.y.error
    · exact hdirects.near.z.error
    · exact hf.approx.x.size
    · exact hf.approx.y.size
    · exact hf.approx.z.size
  have hsecond : |((f.cross u).value - f.value.cross u.value).dot f.value| ≤
      3 * (3 * grain * (101 / 100)) := by
    apply abs_dot_le (by norm_num [grain])
    · exact hcross.x.error.trans (by norm_num)
    · exact hcross.y.error.trans (by norm_num)
    · exact hcross.z.error.trans (by norm_num)
    · exact hf.approx.x.size
    · exact hf.approx.y.size
    · exact hf.approx.z.size
  have hquotient : |((f.cross u).value - f.value.cross u.value).dot f.value / n| ≤ 1 / 2 ^ 25 := by
    rw [abs_div, abs_of_pos hpos, div_le_iff₀ hpos]
    norm_num [grain] at hsecond hn ⊢
    linarith
  rw [hsplit]
  refine (abs_add_le _ _).trans ?_
  norm_num at hfirst hquotient ⊢
  linarith

end Vec3

namespace Frame

theorem exists_along?_near [Libm] {f u : Vec3 Float} (hf : f.NearUnit) (hu : u.NearUnit)
    (hwide : f.value.dot u.value ^ 2 ≤ 1 - 1 / 10 ^ 5) :
    ∃ frame, along? f u = some frame ∧ frame.tangent.NearUnit ∧ frame.bitangent.Fair := by
  obtain ⟨t, ht, hunit, hright⟩ := Vec3.exists_cross_unit? hf hu hwide
  have hcross := hunit.approx.cross hf.approx (by norm_num [grain])
  refine ⟨⟨t, t.cross f⟩, ?_, hunit, hcross.isFinite, hcross.within.mono (by norm_num [grain]), ?_⟩
  · simp only [along?, ht, bind, Option.bind]
  · have hchange := (abs_le.mp hcross.dot_self_near).1
    have harea := Vec3.length_mul_length hunit hf
    have hsmall : t.value.dot f.value ^ 2 ≤ (1 / 2 ^ 20) ^ 2 := by
      rw [← sq_abs]
      exact pow_le_pow_left₀ (abs_nonneg _) hright 2
    rw [Vec3.cross_dot_cross] at hchange
    norm_num [grain] at hchange harea hsmall ⊢
    linarith

/-- Directions that do not count as running along the same line are not almost the same. -/
theorem dot_sq_le_of_not_along [Libm] {f : Vec3 Float} (hf : f.NearUnit)
    (h : alongSameLine f Vec3.up = false) :
    f.value.dot (Vec3.value Vec3.up) ^ 2 ≤ 1 - 1 / 10 ^ 5 := by
  have hdot := hf.approx.dot Vec3.nearUnit_up.approx (by norm_num [grain])
  have hone : Approx 1 0 (1.0 : Float) 1 := .literal rfl toReal_one zero_le_one
  have hdifference := (hdot.abs.sub hone (by norm_num [grain])).abs
  have hliteral : toReal (1e-8 + 1e-5 : Float) = (5908861061690644 : ℕ) * 2 ^ (-69 : ℤ) := rfl
  have hfar : ¬ (((f.dot Vec3.up).abs - 1.0).abs ≤ (1e-8 + 1e-5 : Float)) := by
    simpa [alongSameLine, isUnitSize, Arith.abs] using h
  rw [le_iff_toReal hdifference.finite rfl, not_le, hliteral] at hfar
  have herror := (abs_le.mp hdifference.error).2
  obtain ⟨cosine, hcosine⟩ : ∃ cosine, |f.value.dot (Vec3.value Vec3.up)| = cosine := ⟨_, rfl⟩
  rw [hcosine] at herror
  have hsquare := sq_abs (f.value.dot (Vec3.value Vec3.up))
  rw [hcosine] at hsquare
  have hnonneg : 0 ≤ cosine := by
    rw [← hcosine]
    exact abs_nonneg _
  have hmost : cosine ^ 2 ≤ 1 + 1 / 2 ^ 30 := by
    have harea := Vec3.cross_dot_cross f.value (Vec3.value Vec3.up)
    have hpositive := Vec3.dot_self_nonneg (f.value.cross (Vec3.value Vec3.up))
    have hlength := (abs_le.mp hf.length).2
    have hup : (Vec3.value Vec3.up).dot (Vec3.value Vec3.up) = 1 := by
      rw [Vec3.value_up, Vec3.isUnit_up.dot_self]
    rw [hup, mul_one] at harea
    linarith
  -- the tolerance of the test is a little more than the gap, which leaves room for its rounding
  have hgap : 1 / 10 ^ 5 ≤ |cosine - 1| := by
    have hsmall := abs_nonneg (cosine - 1)
    norm_num [grain] at herror hfar ⊢
    linarith
  have hbelow : cosine ≤ 1 - 1 / 10 ^ 5 := by
    rcases le_abs'.mp hgap with hlow | hhigh
    · linarith
    · norm_num at hhigh hmost
      nlinarith
  rw [← hsquare]
  norm_num at hbelow ⊢
  nlinarith

theorem toReal_nine_tenths : toReal (0.9 : Float) = (8106479329266893 : ℕ) * 2 ^ (-53 : ℤ) := rfl

/-- The direction that is held upright is never almost the same as the one that is looked in. -/
theorem exists_upright_near [Libm] {f : Vec3 Float} (hf : f.NearUnit) :
    (uprightFor f Vec3.up).NearUnit ∧
      f.value.dot (uprightFor f Vec3.up).value ^ 2 ≤ 1 - 1 / 10 ^ 5 := by
  unfold uprightFor
  cases hline : alongSameLine f Vec3.up with
  | false => exact ⟨Vec3.nearUnit_up, dot_sq_le_of_not_along hf hline⟩
  | true =>
      obtain ⟨hfinite, hvalue⟩ := abs_exact hf.finite.z
      have hlength := (abs_le.mp hf.length).2
      have hsquare := sq_abs (toReal f.z)
      rw [Vec3.dot_self_value] at hlength
      simp only [↓reduceIte, standInAxis]
      split
      · rename_i hlow
        have hless : f.z.abs < 0.9 := hlow
        rw [lt_iff_toReal hfinite rfl, hvalue, toReal_nine_tenths] at hless
        have hdot : f.value.dot (Vec3.value Vec3.worldZ) = toReal f.z := by
          rw [Vec3.value_worldZ]
          simp [Vec3.dot, Vec3.worldZ, Vec3.value]
        refine ⟨Vec3.nearUnit_worldZ, ?_⟩
        rw [hdot]
        norm_num at hless ⊢
        nlinarith [abs_nonneg (toReal f.z)]
      · rename_i hhigh
        have hless : ¬ f.z.abs < 0.9 := hhigh
        rw [lt_iff_toReal hfinite rfl, not_lt, hvalue, toReal_nine_tenths] at hless
        have hdot : f.value.dot (Vec3.value Vec3.worldX) = toReal f.x := by
          rw [Vec3.value_worldX]
          simp [Vec3.dot, Vec3.worldX, Vec3.value]
        refine ⟨Vec3.nearUnit_worldX, ?_⟩
        rw [hdot]
        norm_num at hless hlength ⊢
        nlinarith [sq_nonneg (toReal f.y)]

/-- The frame exists as soon as the way from the one point to the other has a direction. -/
theorem exists_lookAt?_near [Libm] {position target f : Vec3 Float}
    (h : (target - position).unit? = some f) :
    ∃ frame, lookAt? position target = some frame ∧ frame.tangent.NearUnit ∧
      frame.bitangent.Fair := by
  have hf := Vec3.nearUnit_of_unit? h
  obtain ⟨hupright, hwide⟩ := exists_upright_near hf
  obtain ⟨frame, hframe, hfair⟩ := exists_along?_near hf hupright hwide
  refine ⟨frame, ?_, hfair⟩
  simp only [lookAt?, h, Vec3.up_unit?, bind, Option.bind]
  exact hframe

end Frame
end Meristem
