import Meristem.Proofs.Rounded.Libm

/-!
Directions of vectors of doubles. The sum of three squares has no cancellation, so the length that
is computed is right up to a small part of itself, for short vectors as for long ones. Whatever
vector a direction is taken of, its own length is therefore one up to a tiny error.
-/

namespace Meristem

/-- Below this no rounding of a moderate number matters to a length. -/
theorem halfStep_le (r : ℝ) : halfStep r ≤ |r| / 2 ^ 53 + 1 / 2 ^ 200 := by
  have hsmallest : (2 : ℝ) ^ (-1075 : ℤ) ≤ 2 ^ (-200 : ℤ) :=
    zpow_le_zpow_right₀ (by norm_num) (by norm_num)
  have hpart : (2 : ℝ) ^ (-53 : ℤ) = 1 / 2 ^ 53 := by norm_num
  have htiny : (2 : ℝ) ^ (-200 : ℤ) = 1 / 2 ^ 200 := by norm_num
  rw [htiny] at hsmallest
  rw [halfStep, hpart, mul_one_div]
  exact add_le_add le_rfl hsmallest

theorem Nearest.near_small {z : Float} {r : ℝ} (h : Nearest z r) (hz : z.isFinite = true) :
    |toReal z - r| ≤ |r| / 2 ^ 53 + 1 / 2 ^ 200 :=
  (h.near hz).trans (halfStep_le r)

/-- The double is not negative and off by a small part of a number, or by next to nothing. -/
structure Square (z : Float) (r : ℝ) : Prop where
  finite : z.isFinite = true
  nonneg : 0 ≤ toReal z
  near : |toReal z - r| ≤ r / 2 ^ 53 + 1 / 2 ^ 200

theorem square_of_nearest {z : Float} {r : ℝ} (h : Nearest z r) (hnonneg : 0 ≤ r)
    (hz : z.isFinite = true) : Square z r := by
  have hnear := h.near_small hz
  rw [abs_of_nonneg hnonneg] at hnear
  exact ⟨hz, h.nonneg hz hnonneg, hnear⟩

theorem minNorm_double : toReal (minNorm : Float) = (4835703278458517 : ℕ) * 2 ^ (-82 : ℤ) := rfl

namespace Vec3

/-- Each component is at most so large. -/
structure Within (b : ℝ) (v : Vec3 Float) : Prop where
  x : |toReal v.x| ≤ b
  y : |toReal v.y| ≤ b
  z : |toReal v.z| ≤ b

theorem Approx.within {b e : ℝ} {v : Vec3 Float} {q : Vec3 ℝ} (h : Approx b e v q) :
    v.Within (b + e) :=
  ⟨h.x.abs_le, h.y.abs_le, h.z.abs_le⟩

theorem Within.mono {b c : ℝ} {v : Vec3 Float} (h : v.Within b) (hbc : b ≤ c) : v.Within c :=
  ⟨h.x.trans hbc, h.y.trans hbc, h.z.trans hbc⟩

theorem square_mul_self {x : Float} (h : (x * x).isFinite = true) :
    Square (x * x) (toReal x ^ 2) := by
  have hx := isFinite_of_mul_self h
  have hnearest := mul_nearest hx hx
  rw [← sq] at hnearest
  exact square_of_nearest hnearest (sq_nonneg _) h

theorem square_add {x y : Float} (hx : 0 ≤ toReal x) (hy : 0 ≤ toReal y)
    (h : (x + y).isFinite = true) : Square (x + y) (toReal x + toReal y) := by
  obtain ⟨hxfinite, hyfinite⟩ := isFinite_of_add h
  exact square_of_nearest (add_nearest hxfinite hyfinite) (add_nonneg hx hy) h

/-- Three squares add up to the right sum, up to a small part of it, unless the sum is out of
range. -/
theorem dot_self_near {v : Vec3 Float} (h : (v.dot v).isFinite = true) :
    v.IsFinite ∧ 0 ≤ toReal (v.dot v) ∧
      |toReal (v.dot v) - v.value.dot v.value| ≤ v.value.dot v.value / 2 ^ 50 + 1 / 2 ^ 190 := by
  obtain ⟨htwofinite, hzfinite⟩ := isFinite_of_add h
  obtain ⟨hxfinite, hyfinite⟩ := isFinite_of_add htwofinite
  have hx := square_mul_self hxfinite
  have hy := square_mul_self hyfinite
  have hz := square_mul_self hzfinite
  have htwo := square_add hx.nonneg hy.nonneg htwofinite
  have hthree : Square (v.dot v) _ := square_add htwo.nonneg hz.nonneg h
  refine ⟨⟨isFinite_of_mul_self hxfinite, isFinite_of_mul_self hyfinite,
    isFinite_of_mul_self hzfinite⟩, hthree.nonneg, ?_⟩
  rw [dot_self_value]
  have hxnear := abs_le.mp hx.near
  have hynear := abs_le.mp hy.near
  have hznear := abs_le.mp hz.near
  have htwonear := abs_le.mp htwo.near
  have hthreenear := abs_le.mp hthree.near
  obtain ⟨tiny, htiny, hpos⟩ : ∃ tiny : ℝ, 1 / 2 ^ 200 = tiny ∧ 0 < tiny :=
    ⟨_, rfl, by positivity⟩
  have hlarge : (1 : ℝ) / 2 ^ 190 = 1024 * tiny := by
    rw [← htiny]
    norm_num
  rw [htiny] at hxnear hynear hznear htwonear hthreenear
  rw [hlarge, abs_le]
  have hxsquare := sq_nonneg (toReal v.x)
  have hysquare := sq_nonneg (toReal v.y)
  have hzsquare := sq_nonneg (toReal v.z)
  constructor
  · linarith
  · linarith

/-- Finite components, and a length of one up to a tiny error. -/
structure NearUnit (d : Vec3 Float) : Prop where
  finite : d.IsFinite
  length : |d.value.dot d.value - 1| ≤ 1 / 2 ^ 30

theorem NearUnit.approx {d : Vec3 Float} (h : d.NearUnit) : d.Approx (101 / 100) 0 d.value := by
  obtain ⟨hx, hy, hz⟩ := d.sq_le_dot_self_value
  have hlength := (abs_le.mp h.length).2
  have hcomponent {s : ℝ} (hs : s ^ 2 ≤ d.value.dot d.value) : |s| ≤ 101 / 100 := by
    apply abs_le_of_sq_le_sq _ (by norm_num)
    norm_num at hlength ⊢
    linarith
  exact h.finite.approx (hcomponent hx) (hcomponent hy) (hcomponent hz)

/-- The vector `d` is `v` divided by `n`, which is its length, up to rounding. -/
structure Directs (v d : Vec3 Float) (n : ℝ) : Prop where
  long : 1 / 2 ^ 31 ≤ n
  length : |v.value.dot v.value - n ^ 2| ≤ n ^ 2 / 2 ^ 40
  near : Approx (101 / 100) (1 / 2 ^ 50) d (v.value.divide n)

theorem Directs.nearUnit {v d : Vec3 Float} {n : ℝ} (h : Directs v d n) : d.NearUnit := by
  refine ⟨h.near.isFinite, ?_⟩
  have hpos : 0 < n ^ 2 := by
    have hlong := h.long
    have hn : 0 < n := lt_of_lt_of_le (by norm_num) hlong
    positivity
  have hchange := abs_le.mp h.near.dot_self_near
  have hquotient : |(v.value.divide n).dot (v.value.divide n) - 1| ≤ 1 / 2 ^ 40 := by
    rw [dot_divide, div_sub_one hpos.ne', abs_div, abs_of_pos hpos, div_le_iff₀ hpos]
    calc |v.value.dot v.value - n ^ 2| ≤ n ^ 2 / 2 ^ 40 := h.length
      _ = 1 / 2 ^ 40 * n ^ 2 := by ring
  have hone := abs_le.mp hquotient
  rw [abs_le]
  norm_num at hchange hone ⊢
  constructor
  · linarith
  · linarith

/-- Not short, and of moderate components. -/
structure Fair (v : Vec3 Float) : Prop where
  finite : v.IsFinite
  within : v.Within (2 ^ 6)
  long : 1 / 2 ^ 20 ≤ v.value.dot v.value

theorem NearUnit.fair {v : Vec3 Float} (h : v.NearUnit) : v.Fair := by
  refine ⟨h.finite, h.approx.within.mono (by norm_num), ?_⟩
  have hlength := (abs_le.mp h.length).1
  norm_num at hlength ⊢
  linarith

section Length

variable [Libm] {v d : Vec3 Float}

theorem isFinite_of_norm (h : v.norm.isFinite = true) : (v.dot v).isFinite = true :=
  isFinite_of_sqrt h

/-- Moderate vectors have a length. -/
theorem norm_isFinite (hv : v.IsFinite) (hsize : v.Within (2 ^ 6)) : v.norm.isFinite = true := by
  have happrox := hv.approx hsize.x hsize.y hsize.z
  have hdot := happrox.dot happrox (by norm_num [grain])
  obtain ⟨-, hnonneg, -⟩ := dot_self_near hdot.finite
  apply (sqrt_nearest hdot.finite hnonneg).isFinite_of_moderate
  rw [abs_of_nonneg (Real.sqrt_nonneg _), Real.sqrt_le_left (by norm_num)]
  have hmost := (le_abs_self _).trans hdot.abs_le
  norm_num [grain] at hmost ⊢
  linarith

theorem norm_near_sqrt (h : v.norm.isFinite = true) : Square v.norm (√(toReal (v.dot v))) := by
  obtain ⟨-, hnonneg, -⟩ := dot_self_near (isFinite_of_norm h)
  exact square_of_nearest (sqrt_nearest (isFinite_of_norm h) hnonneg) (Real.sqrt_nonneg _) h

/-- The computed length is right up to a small part of itself. -/
theorem norm_sq_near (h : v.norm.isFinite = true) (hlong : 1 / 2 ^ 70 ≤ v.value.dot v.value) :
    |toReal v.norm ^ 2 - v.value.dot v.value| ≤ v.value.dot v.value / 2 ^ 45 := by
  obtain ⟨-, hnonneg, hdot⟩ := dot_self_near (isFinite_of_norm h)
  have hnorm := norm_near_sqrt h
  have hnear := abs_le.mp hnorm.near
  have hroot := Real.sqrt_nonneg (toReal (v.dot v))
  have hsquare := Real.sq_sqrt hnonneg
  obtain ⟨hlow, hhigh⟩ := abs_le.mp hdot
  -- the root is long enough for the smallest numbers to be a small part of it
  have hfair : 1 / 2 ^ 36 ≤ √(toReal (v.dot v)) := by
    apply Real.le_sqrt_of_sq_le
    norm_num at hlong hlow ⊢
    linarith
  obtain ⟨root, hroot'⟩ : ∃ root, √(toReal (v.dot v)) = root := ⟨_, rfl⟩
  rw [hroot'] at hnear hroot hsquare hfair
  have hupper : toReal v.norm ^ 2 ≤ (root * (1 + 1 / 2 ^ 52)) ^ 2 := by
    apply pow_le_pow_left₀ hnorm.nonneg
    norm_num at hnear hfair ⊢
    linarith
  have hlower : (root * (1 - 1 / 2 ^ 52)) ^ 2 ≤ toReal v.norm ^ 2 := by
    apply pow_le_pow_left₀ (mul_nonneg hroot (by norm_num))
    norm_num at hnear hfair ⊢
    linarith
  rw [mul_pow, hsquare] at hupper hlower
  rw [abs_le]
  norm_num at hupper hlower hlow hhigh hlong ⊢
  constructor
  · linarith
  · linarith

theorem long_of_norm (h : v.norm.isFinite = true) (hlong : 1 / 2 ^ 31 ≤ toReal v.norm) :
    1 / 2 ^ 70 ≤ v.value.dot v.value := by
  obtain ⟨-, hnonneg, hdot⟩ := dot_self_near (isFinite_of_norm h)
  have hnorm := abs_le.mp (norm_near_sqrt h).near
  have hfair : 1 / 2 ^ 32 ≤ √(toReal (v.dot v)) := by
    norm_num at hnorm hlong ⊢
    linarith
  have hsquare : (1 / 2 ^ 32) ^ 2 ≤ toReal (v.dot v) :=
    (Real.le_sqrt' (by norm_num)).mp hfair
  have hhigh := (abs_le.mp hdot).2
  norm_num at hsquare hhigh ⊢
  linarith

theorem unit?_eq_some_iff :
    v.unit? = some d ↔ v.norm.isFinite = true ∧ ¬ v.norm < minNorm ∧ v.divide v.norm = d := by
  have hfinite : Scalar.isFinite v.norm = v.norm.isFinite := rfl
  simp only [unit?, hfinite]
  split
  · rename_i hnone
    constructor
    · simp
    · rintro ⟨hnorm, hlong, -⟩
      rcases hnone with hspecial | hshort
      · simp [hnorm] at hspecial
      · exact absurd hshort hlong
  · rename_i hsome
    rw [not_or, Bool.not_eq_false] at hsome
    simp [hsome]

/-- What the direction of a vector is, if it has one. -/
theorem directs_of_unit? (h : v.unit? = some d) : ∃ n, Directs v d n := by
  obtain ⟨hfinite, hless, rfl⟩ := unit?_eq_some_iff.mp h
  obtain ⟨hv, -, -⟩ := dot_self_near (isFinite_of_norm hfinite)
  have hmin : 1 / 2 ^ 31 ≤ toReal v.norm := by
    rw [lt_iff_toReal hfinite rfl, not_lt, minNorm_double] at hless
    refine le_trans ?_ hless
    norm_num
  have hfair := long_of_norm hfinite hmin
  have hlength := abs_le.mp (norm_sq_near hfinite hfair)
  obtain ⟨n, hn⟩ : ∃ n, toReal v.norm = n := ⟨_, rfl⟩
  rw [hn] at hmin hlength
  have hpos : 0 < n := lt_of_lt_of_le (by norm_num) hmin
  have hcomponent {x : Float} (hx : x.isFinite = true)
      (hle : toReal x ^ 2 ≤ v.value.dot v.value) :
      Meristem.Approx (101 / 100) (1 / 2 ^ 50) (x / v.norm) (toReal x / n) := by
    have hquotient : |toReal x / n| ≤ 101 / 100 := by
      apply abs_le_of_sq_le_sq _ (by norm_num)
      rw [div_pow, div_le_iff₀ (by positivity)]
      norm_num at hlength ⊢
      linarith
    have hnearest := div_nearest hx hfinite (by rw [hn]; exact hpos.ne')
    rw [hn] at hnearest
    have hresult := hnearest.isFinite_of_moderate (hquotient.trans (by norm_num))
    refine ⟨hresult, hquotient, (hnearest.near_small hresult).trans ?_⟩
    norm_num at hquotient ⊢
    linarith
  obtain ⟨hx, hy, hz⟩ := v.sq_le_dot_self_value
  refine ⟨n, hmin, ?_, hcomponent hv.x hx, hcomponent hv.y hy, hcomponent hv.z hz⟩
  rw [abs_le]
  norm_num at hlength hfair ⊢
  constructor
  · linarith
  · linarith

theorem nearUnit_of_unit? (h : v.unit? = some d) : d.NearUnit := by
  obtain ⟨n, hdirects⟩ := directs_of_unit? h
  exact hdirects.nearUnit

/-- A vector that is not short has a direction. -/
theorem Fair.exists_unit? (h : v.Fair) : ∃ d, v.unit? = some d ∧ d.NearUnit := by
  have hfinite := norm_isFinite h.finite h.within
  have hlong := h.long
  have hlength := abs_le.mp (norm_sq_near hfinite (le_trans (by norm_num) hlong))
  have hless : ¬ v.norm < minNorm := by
    rw [lt_iff_toReal hfinite rfl, not_lt, minNorm_double]
    apply le_of_sq_le_sq _ (norm_near_sqrt hfinite).nonneg
    norm_num at hlength hlong ⊢
    linarith
  have hunit : v.unit? = some (v.divide v.norm) :=
    unit?_eq_some_iff.mpr ⟨hfinite, hless, rfl⟩
  exact ⟨_, hunit, nearUnit_of_unit? hunit⟩

end Length

end Vec3
end Meristem
