import Meristem.Proofs.Rounded.Frame
import Meristem.Proofs.Drawing.Steady

/-!
A turtle of doubles that starts with a direction keeps one. Its noise and so its angles are bounded
wherever it stands, its direction is of length one up to a tiny error after every change, and its
steps are too short to carry it out of range. It can always wobble and leave a record. A turn alone
needs more: the difference of two places, which are rounded.
-/

namespace Meristem

section Noise

theorem toReal_five : toReal (5.0 : Float) = 5 := by
  have hvalue : toReal (5.0 : Float) = (5629499534213120 : ℕ) * 2 ^ (-50 : ℤ) := rfl
  rw [hvalue]
  norm_num

theorem toReal_thirty : toReal (30.0 : Float) = 30 := by
  have hvalue : toReal (30.0 : Float) = (8444249301319680 : ℕ) * 2 ^ (-48 : ℤ) := rfl
  rw [hvalue]
  norm_num

variable [Libm]

theorem belowOne_near : Approx 2 0 (belowOne : Float) (toReal belowOne) := by
  have hsame : (belowOne : Float) = @belowOne Float instScalarFloat := rfl
  have hfinite : (@belowOne Float instScalarFloat).isFinite = true := by decide +kernel
  have hlow : (0.0 : Float) ≤ @belowOne Float instScalarFloat := by decide +kernel
  have hhigh : @belowOne Float instScalarFloat ≤ 1.0 := by decide +kernel
  rw [le_iff_toReal rfl hfinite] at hlow
  rw [le_iff_toReal hfinite rfl, toReal_one] at hhigh
  have hzero : toReal (0.0 : Float) = 0 := rfl
  rw [hsame]
  apply Approx.exact hfinite
  rw [abs_of_nonneg (hzero.symm.trans_le hlow)]
  linarith

/-- Noise is bounded at every place, also where its phase is out of range. -/
theorem noise_near (hlibm : Libm.Accurate) (p : Vec3 Float) :
    Approx 2 0 (noise p) (toReal (noise p)) := by
  simp only [noise]
  split
  · rename_i hfinite
    obtain ⟨hfloor, hvalue⟩ := hlibm.floor (hashWave p) hfinite
    have hlow := Int.floor_le (toReal (hashWave p))
    have hhigh := Int.lt_floor_add_one (toReal (hashWave p))
    have hfraction : |toReal (hashWave p) - toReal (Libm.floor (hashWave p))| ≤ 1 := by
      rw [hvalue, abs_le]
      constructor
      · linarith
      · linarith
    have hnear := (sub_nearest hfinite hfloor).approx (hfraction.trans (by norm_num)) hfraction
      (le_of_eq (by rw [sub_self, abs_zero]))
    split
    · exact belowOne_near
    · apply hnear.forget
      norm_num [grain]
  · have hfinite : (0.0 : Float).isFinite = true := rfl
    have hzero : toReal (0.0 : Float) = 0 := rfl
    apply Approx.exact hfinite
    rw [hzero, abs_zero]
    norm_num

end Noise

namespace Turtle

/-- A turtle of doubles in good order: it stands at a place, points in a direction, and its segments
are short. -/
structure Sound (t : Turtle Float) : Prop where
  position : t.position.IsFinite
  direction : t.orientation.NearUnit
  length : Approx 2 0 t.scale.y (toReal t.scale.y)

section Edits

theorem toReal_neg_one : toReal (-1.0 : Float) = -1 := by
  have hvalue : toReal (-1.0 : Float) = -((4503599627370496 : ℕ) * 2 ^ (-52 : ℤ)) := rfl
  rw [hvalue]
  norm_num

/-- A change of sign by a product is exact. -/
theorem mul_minus_one {x : Float} (hx : x.isFinite = true) :
    (x * -1.0).isFinite = true ∧ toReal (x * -1.0) = -toReal x := by
  obtain ⟨hneg, hvalue⟩ := neg_exact hx
  have hnearest := @mul_nearest x (-1.0) hx rfl
  rw [toReal_neg_one, mul_neg_one] at hnearest
  exact hnearest.exact hneg hvalue

variable {t : Turtle Float}

theorem Sound.lifted (h : t.Sound) : t.lifted.Sound := by
  unfold Turtle.lifted
  split
  · obtain ⟨hfinite, hvalue⟩ := mul_minus_one h.direction.finite.y
    refine ⟨h.position, ⟨⟨h.direction.finite.x, hfinite, h.direction.finite.z⟩, ?_⟩, h.length⟩
    have hlength := h.direction.length
    rw [Vec3.dot_self_value] at hlength ⊢
    change |toReal t.orientation.x ^ 2 + toReal (t.orientation.y * -1.0) ^ 2 +
      toReal t.orientation.z ^ 2 - 1| ≤ 1 / 2 ^ 30
    rw [hvalue, neg_sq]
    exact hlength
  · exact h

theorem Sound.shrunk (h : t.Sound) : t.shrunk.Sound := by
  refine ⟨h.position, h.direction, ?_⟩
  have hvalue : toReal (0.96 : Float) = (8646911284551352 : ℕ) * 2 ^ (-53 : ℤ) := rfl
  have hfactor : Approx (961 / 1000) 0 (0.96 : Float) (toReal 0.96) := by
    apply Approx.exact rfl
    rw [hvalue]
    norm_num
  apply (h.length.mul hfactor (by norm_num)).forget
  norm_num [grain]

/-- A step of moderate size does not leave the range of the doubles. -/
theorem isFinite_add_small {x y : Float} (hx : x.isFinite = true) {b e r : ℝ}
    (hy : Approx b e y r) (hsmall : b + e ≤ 8) : (x + y).isFinite = true := by
  apply (add_nearest hx hy.finite).finite
  -- a sum overflows only half a unit of the largest double above that double
  have hroom : (8 : ℝ) < 2 ^ (971 : ℤ) - 2 ^ (970 : ℤ) := by
    have hdouble : (2 : ℝ) ^ (971 : ℤ) = 2 * 2 ^ (970 : ℤ) := by
      rw [← zpow_one_add₀ (by norm_num)]
      rfl
    have hlarge : (2 : ℝ) ^ (4 : ℤ) ≤ 2 ^ (970 : ℤ) :=
      zpow_le_zpow_right₀ (by norm_num) (by norm_num)
    rw [hdouble, two_mul, add_sub_cancel_right]
    refine lt_of_lt_of_le ?_ hlarge
    norm_num
  calc |toReal x + toReal y| ≤ |toReal x| + |toReal y| := abs_add_le _ _
    _ ≤ 2 ^ (1024 : ℤ) - 2 ^ (971 : ℤ) + 8 :=
        add_le_add (abs_toReal_le hx) (hy.abs_le.trans hsmall)
    _ < 2 ^ (1024 : ℤ) - 2 ^ (971 : ℤ) + (2 ^ (971 : ℤ) - 2 ^ (970 : ℤ)) := by gcongr
    _ = 2 ^ (1024 : ℤ) - 2 ^ (970 : ℤ) := sub_add_sub_cancel _ _ _

theorem Sound.move (h : t.Sound) : t.move.Sound := by
  refine ⟨?_, h.direction, h.length⟩
  have hstep := h.direction.approx.scale h.length (by norm_num)
  constructor
  · exact isFinite_add_small h.position.x hstep.x (by norm_num [grain])
  · exact isFinite_add_small h.position.y hstep.y (by norm_num [grain])
  · exact isFinite_add_small h.position.z hstep.z (by norm_num [grain])

theorem Edit.sound [Libm] {next : Turtle Float} (h : t.Edit next) (ht : t.Sound) : next.Sound := by
  cases h with
  | rotate h =>
      obtain ⟨direction, hturned, rfl⟩ := rotate_eq_ok h
      obtain ⟨axis, -, hunit⟩ := Option.bind_eq_some_iff.mp hturned
      exact ⟨ht.position, Vec3.nearUnit_of_unit? hunit, ht.length⟩
  | lift => exact ht.lifted
  | shrink => exact ht.shrunk
  | move => exact ht.move
  | thin => exact ⟨ht.position, ht.direction, ht.length⟩
  | deepen => exact ⟨ht.position, ht.direction, ht.length⟩

end Edits

section Actions

variable [Libm] (hlibm : Libm.Accurate) {t : Turtle Float}

include hlibm

theorem exists_rotate_near (ht : t.Sound) {axis : Vec3 Float} (haxis : axis.Fair) {degrees : Float}
    {b e r : ℝ} (hdegrees : Approx b e degrees r) (hmost : b + e ≤ 64) :
    ∃ next, t.rotate axis degrees = .ok next ∧ next.Sound := by
  obtain ⟨d, hd⟩ := exists_turned?_near hlibm haxis ht.direction hdegrees.finite
    (hdegrees.abs_le.trans hmost)
  have hrotate : t.rotate axis degrees = .ok { t with orientation := d } := by
    simp only [rotate, hd]
  exact ⟨_, hrotate, (Edit.rotate hrotate).sound ht⟩

/-- A wobble never fails. -/
theorem exists_jitter_near (ht : t.Sound) : ∃ next, t.jitter = .ok next := by
  have hfive : Approx 5 0 (5.0 : Float) 5 := .literal rfl toReal_five (by norm_num)
  have htwo : Approx 2 0 (2.0 : Float) 2 := .literal rfl toReal_two zero_le_two
  have hangle (p : Vec3 Float) : ∃ b e r, Approx b e (jitterDegrees p jitterAmplitude) r ∧
      b + e ≤ 64 := by
    have hproduct := htwo.mul hfive (by norm_num)
    have hspread := hproduct.mul (noise_near hlibm p) (by norm_num [grain])
    refine ⟨_, _, _, hspread.sub hfive (by norm_num [grain]), ?_⟩
    norm_num [grain]
  obtain ⟨_, _, _, hfirst, hmost⟩ := hangle t.position
  obtain ⟨half, hhalf, hsound⟩ :=
    exists_rotate_near hlibm ht Vec3.nearUnit_worldZ.fair hfirst hmost
  obtain ⟨_, _, _, hsecond, hlast⟩ := hangle half.position
  obtain ⟨next, hnext, -⟩ :=
    exists_rotate_near hlibm hsound Vec3.nearUnit_worldX.fair hsecond hlast
  refine ⟨next, ?_⟩
  simp only [jitter, hhalf, bind, Except.bind]
  exact hnext

/-- A turn fails only where there is no way ahead. -/
theorem exists_turn_near (ht : t.Sound) {ahead : Vec3 Float}
    (hahead : (t.position + t.orientation - t.position).unit? = some ahead) {sign : Float} {r : ℝ}
    (hsign : Approx 1 0 sign r) : ∃ next, t.turn sign = .ok next := by
  have hthirty : Approx 30 0 (30.0 : Float) 30 := .literal rfl toReal_thirty (by norm_num)
  have hangle (p : Vec3 Float) : ∃ b e r, Approx b e (sign * turnDegrees * noise p) r ∧
      b + e ≤ 64 := by
    have hproduct := hsign.mul hthirty (by norm_num)
    refine ⟨_, _, _, hproduct.mul (noise_near hlibm p) (by norm_num [grain]), ?_⟩
    norm_num [grain]
  obtain ⟨frame, hframe, htangent, hbitangent⟩ := Frame.exists_lookAt?_near hahead
  obtain ⟨_, _, _, hfirst, hmost⟩ := hangle t.position
  obtain ⟨half, hhalf, hsound⟩ := exists_rotate_near hlibm ht htangent.fair hfirst hmost
  obtain ⟨_, _, _, hsecond, hlast⟩ := hangle half.position
  obtain ⟨next, hnext, -⟩ := exists_rotate_near hlibm hsound hbitangent hsecond hlast
  refine ⟨next, ?_⟩
  simp only [turn, hframe, hhalf, bind, Except.bind]
  exact hnext

omit hlibm in
/-- The way up has an axis for a half turn. -/
theorem exists_halfTurnAxis?_up : ∃ axis, halfTurnAxis? (Vec3.up : Vec3 Float) = some axis := by
  have hsame : halfTurnAxis? (Vec3.up : Vec3 Float) =
      @halfTurnAxis? Float instScalarFloat Vec3.up := rfl
  have hsome : (@halfTurnAxis? Float instScalarFloat Vec3.up).isSome = true := by decide +kernel
  rw [hsame]
  exact Option.isSome_iff_exists.mp hsome

omit hlibm in
/-- The quaternion of a direction exists, also where it is opposite to the way up. -/
theorem exists_quaternion?_near (ht : t.Sound) : ∃ q, t.quaternion? = some q := by
  obtain ⟨direction, hdirection, -⟩ := ht.direction.fair.exists_unit?
  obtain ⟨axis, haxis⟩ := exists_halfTurnAxis?_up
  have hbetween : t.quaternion? = Quat.twiceTo? Vec3.up (Vec3.up + direction) := by
    simp only [quaternion?, Quat.between?, Vec3.up_unit?, hdirection, bind, Option.bind]
  rw [hbetween]
  simp only [Quat.twiceTo?, haxis, bind, Option.bind]
  split
  · exact ⟨_, rfl⟩
  · exact ⟨_, rfl⟩

theorem steady_sound : Steady Sound where
  edit := fun _ _ hedit ht => hedit.sound ht
  jitter := fun _ ht => exists_jitter_near hlibm ht
  quaternion := fun _ ht => exists_quaternion?_near ht

end Actions

end Turtle
end Meristem
