import Meristem.Proofs.Rounded.Double

/-!
Finite doubles are ordered like the numbers they stand for, and the changes of sign are exact. What
is no number is in no order, and no root is below zero.
-/

namespace Meristem

open Float.Model Float.Model.UnpackedFloat

section Compare

/-- A larger exponent makes the larger number, however small its mantissa. -/
theorem magnitude_lt {m n : ℕ} {e f : ℤ} (hshort : m < 2 ^ 53) (hlong : 2 ^ 52 ≤ n) (h : e < f) :
    (m : ℝ) * 2 ^ e < n * 2 ^ f := by
  have htwo : (2 : ℝ) ≠ 0 := by norm_num
  have hpos : (0 : ℝ) < 2 ^ e := by positivity
  have hmantissa : (m : ℝ) < 2 ^ (53 : ℤ) := by exact_mod_cast hshort
  have hother : (2 : ℝ) ^ (52 : ℤ) ≤ n := by exact_mod_cast hlong
  calc (m : ℝ) * 2 ^ e < 2 ^ (53 : ℤ) * 2 ^ e := mul_lt_mul_of_pos_right hmantissa hpos
    _ = 2 ^ (52 : ℤ) * 2 ^ (e + 1) := by
        rw [← zpow_add₀ htwo, ← zpow_add₀ htwo]
        congr 1
        ring
    _ ≤ 2 ^ (52 : ℤ) * 2 ^ f := by
        have hpower : (2 : ℝ) ^ (e + 1) ≤ 2 ^ f := zpow_le_zpow_right₀ (by norm_num) h
        gcongr
    _ ≤ n * 2 ^ f := by gcongr

theorem compare_magnitude {s t : Sign} {m n : ℕ} {e f : ℤ} {hm : 0 < m} {hn : 0 < n}
    (ha : Trim (.finite s m e hm)) (hb : Trim (.finite t n f hn)) :
    (compare e f).then (compare m n) = compare ((m : ℝ) * 2 ^ e) (n * 2 ^ f) := by
  obtain ⟨hmshort, hemin, hmlong⟩ := ha
  obtain ⟨hnshort, hfmin, hnlong⟩ := hb
  rcases lt_trichotomy e f with hlt | rfl | hgt
  · have hvalue := magnitude_lt hmshort (hnlong.resolve_right (by omega)) hlt
    rw [Int.compare_eq_lt.mpr hlt, compare_lt_iff_lt.mpr hvalue]
    rfl
  · have hpos : (0 : ℝ) < 2 ^ e := by positivity
    rw [Int.compare_eq_eq.mpr rfl, Ordering.eq_then]
    rcases lt_trichotomy m n with hlt | rfl | hgt
    · have hcast : (m : ℝ) < n := by exact_mod_cast hlt
      rw [Nat.compare_eq_lt.mpr hlt,
        compare_lt_iff_lt.mpr (mul_lt_mul_of_pos_right hcast hpos)]
    · rw [Nat.compare_eq_eq.mpr rfl, compare_eq_iff_eq.mpr rfl]
    · have hcast : (n : ℝ) < m := by exact_mod_cast hgt
      rw [Nat.compare_eq_gt.mpr hgt,
        compare_gt_iff_gt.mpr (mul_lt_mul_of_pos_right hcast hpos)]
  · have hvalue := magnitude_lt hnshort (hmlong.resolve_right (by omega)) hgt
    rw [Int.compare_eq_gt.mpr hgt, compare_gt_iff_gt.mpr hvalue]
    rfl

theorem compare_neg_neg (x y : ℝ) : compare (-x) (-y) = (compare x y).swap := by
  rcases lt_trichotomy x y with hlt | rfl | hgt
  · rw [compare_lt_iff_lt.mpr hlt, compare_gt_iff_gt.mpr (neg_lt_neg hlt)]
    rfl
  · rw [compare_eq_iff_eq.mpr rfl, compare_eq_iff_eq.mpr rfl]
    rfl
  · rw [compare_gt_iff_gt.mpr hgt, compare_lt_iff_lt.mpr (neg_lt_neg hgt)]
    rfl

theorem compare_value {a b : UnpackedFloat} (ha : Trim a) (hb : Trim b) :
    UnpackedFloat.compare a b = some (compare (valueOf a) (valueOf b)) := by
  have hpos {m : ℕ} (hm : 0 < m) (e : ℤ) : (0 : ℝ) < m * 2 ^ e := by positivity
  match a, b, ha, hb with
  | .zero s, .zero t, _, _ =>
      exact congrArg some (compare_eq_iff_eq.mpr rfl).symm
  | .zero s, .finite .positive n f hn, _, _ =>
      exact congrArg some (compare_lt_iff_lt.mpr (hpos hn f)).symm
  | .zero s, .finite .negative n f hn, _, _ =>
      exact congrArg some (compare_gt_iff_gt.mpr (neg_neg_of_pos (hpos hn f))).symm
  | .finite .positive m e hm, .zero t, _, _ =>
      exact congrArg some (compare_gt_iff_gt.mpr (hpos hm e)).symm
  | .finite .negative m e hm, .zero t, _, _ =>
      exact congrArg some (compare_lt_iff_lt.mpr (neg_neg_of_pos (hpos hm e))).symm
  | .finite .positive m e hm, .finite .positive n f hn, ha, hb =>
      exact congrArg some (compare_magnitude ha hb)
  | .finite .negative m e hm, .finite .negative n f hn, ha, hb =>
      simp only [valueOf, signed, compare_neg_neg, ← compare_magnitude ha hb]
      rfl
  | .finite .positive m e hm, .finite .negative n f hn, _, _ =>
      have hless := (neg_neg_of_pos (hpos hn f)).trans (hpos hm e)
      exact congrArg some (compare_gt_iff_gt.mpr hless).symm
  | .finite .negative m e hm, .finite .positive n f hn, _, _ =>
      have hless := (neg_neg_of_pos (hpos hm e)).trans (hpos hn f)
      exact congrArg some (compare_lt_iff_lt.mpr hless).symm

end Compare

variable {x y : Float}

theorem lt_iff_unpack : x < y ↔ x.toModel.unpack.lt y.toModel.unpack = true := by
  change Float.lt x y = true ↔ _
  rw [Float.lt, decide_eq_true_iff]
  exact Iff.rfl

theorem le_iff_unpack : x ≤ y ↔ x.toModel.unpack.le y.toModel.unpack = true := by
  change Float.le x y = true ↔ _
  rw [Float.le, decide_eq_true_iff]
  exact Iff.rfl

theorem lt_iff_toReal (hx : x.isFinite = true) (hy : y.isFinite = true) :
    x < y ↔ toReal x < toReal y := by
  rw [lt_iff_unpack, UnpackedFloat.lt,
    compare_value (fits_of_isFinite hx).trim (fits_of_isFinite hy).trim,
    beq_iff_eq, Option.some.injEq, compare_lt_iff_lt]
  exact Iff.rfl

theorem le_iff_toReal (hx : x.isFinite = true) (hy : y.isFinite = true) :
    x ≤ y ↔ toReal x ≤ toReal y := by
  rw [le_iff_unpack, UnpackedFloat.le,
    compare_value (fits_of_isFinite hx).trim (fits_of_isFinite hy).trim,
    Option.any_some]
  exact Ordering.isLE_iff_ne_gt.trans ((not_congr compare_gt_iff_gt).trans not_lt)

/-- No comparison holds with what is no number. -/
theorem compare_notANumber (u : UnpackedFloat) : u.compare .notANumber = none := by
  cases u with
  | notANumber => rfl
  | infinity s => cases s <;> rfl
  | zero s => rfl
  | finite s m e h => cases s <;> rfl

theorem infinity_not_le {u : UnpackedFloat} (h : u.isFinite = true) :
    (infinity .positive).le u = false := by
  match u, h with
  | .zero s, _ => rfl
  | .finite s m e hm, _ => rfl

theorem not_le_infinity {u : UnpackedFloat} (h : u.isFinite = true) :
    u.le (infinity .negative) = false := by
  match u, h with
  | .zero s, _ => rfl
  | .finite .positive m e hm, _ => rfl
  | .finite .negative m e hm, _ => rfl

/-- What lies between two finite doubles is finite. -/
theorem isFinite_of_le_of_le {low high : Float} (hlow : low.isFinite = true)
    (hhigh : high.isFinite = true) (hlower : low ≤ x) (hupper : x ≤ high) :
    x.isFinite = true := by
  rw [le_iff_unpack] at hlower hupper
  change x.toModel.unpack.isFinite = true
  cases hx : x.toModel.unpack with
  | notANumber =>
      rw [hx, UnpackedFloat.le, compare_notANumber] at hlower
      exact absurd hlower (by decide)
  | infinity s =>
      rw [hx] at hlower hupper
      cases s with
      | positive => exact absurd (hupper.symm.trans (infinity_not_le hhigh)) (by decide)
      | negative => exact absurd (hlower.symm.trans (not_le_infinity hlow)) (by decide)
  | zero s => rfl
  | finite s m e hm => rfl

theorem isNaN_iff_unpack : x.isNaN = true ↔ x.toModel.unpack.isNaN = true := Iff.rfl

theorem beq_iff_unpack : (x == y) = true ↔ x.toModel.unpack.beq y.toModel.unpack = true :=
  Iff.rfl

/-- A double that is not above zero is below it, is zero or is no number. -/
theorem not_zero_lt_iff :
    ¬ (0.0 : Float) < x ↔ x < 0.0 ∨ (x == 0.0) = true ∨ x.isNaN = true := by
  have hzero : (0.0 : Float).toModel.unpack = .zero .positive := rfl
  rw [lt_iff_unpack, lt_iff_unpack, beq_iff_unpack, isNaN_iff_unpack, hzero]
  match x.toModel.unpack with
  | .notANumber => decide
  | .infinity .positive => decide
  | .infinity .negative => decide
  | .zero s => cases s <;> decide
  | .finite .positive m e hm =>
      simp [UnpackedFloat.lt, UnpackedFloat.beq, UnpackedFloat.compare, UnpackedFloat.isNaN]
  | .finite .negative m e hm =>
      simp [UnpackedFloat.lt, UnpackedFloat.beq, UnpackedFloat.compare, UnpackedFloat.isNaN]

/-- No root is below zero. -/
theorem sqrt_not_neg : ¬ x.sqrt < 0.0 := by
  have hroot : x.sqrt.toModel.unpack =
      (Float.Model.pack (UnpackedFloat.sqrt Format.binary64 x.toModel.unpack)).unpack := rfl
  have hzero : (0.0 : Float).toModel.unpack = .zero .positive := rfl
  by_cases hx : x.isFinite = true ∧ 0 ≤ toReal x
  · obtain ⟨hfinite, hnonneg⟩ := hx
    have hnearest := sqrt_nearest hfinite hnonneg
    have hrooted : x.sqrt.isFinite = true := by
      apply hnearest.isFinite
      rw [abs_of_nonneg (Real.sqrt_nonneg _), Real.sqrt_le_left (by positivity)]
      have hsmall : (2 : ℝ) ^ (1024 : ℤ) ≤ (2 ^ (1000 : ℤ)) ^ 2 := by
        rw [← zpow_natCast, ← zpow_mul]
        exact zpow_le_zpow_right₀ (by norm_num) (by norm_num)
      have hroom : (0 : ℝ) ≤ 2 ^ (971 : ℤ) := by positivity
      calc toReal x ≤ |toReal x| := le_abs_self _
        _ ≤ 2 ^ (1024 : ℤ) - 2 ^ (971 : ℤ) := abs_toReal_le hfinite
        _ ≤ 2 ^ (1024 : ℤ) := sub_le_self _ hroom
        _ ≤ (2 ^ (1000 : ℤ)) ^ 2 := hsmall
    rw [lt_iff_toReal hrooted rfl, toReal_zero, not_lt]
    exact hnearest.nonneg hrooted (Real.sqrt_nonneg _)
  · rw [lt_iff_unpack, hroot, hzero]
    cases hu : x.toModel.unpack with
    | notANumber => decide
    | infinity s => cases s <;> decide
    | zero s => cases s <;> decide
    | finite s m e hm =>
        cases s with
        | negative => simp only [UnpackedFloat.sqrt]; decide
        | positive =>
            refine absurd ⟨?_, ?_⟩ hx
            · change x.toModel.unpack.isFinite = true
              rw [hu]
              rfl
            · change 0 ≤ valueOf x.toModel.unpack
              rw [hu]
              simp only [valueOf, signed]
              positivity

theorem not_zero_lt_sqrt :
    ¬ (0.0 : Float) < x.sqrt ↔ (x.sqrt == 0.0) = true ∨ x.sqrt.isNaN = true := by
  rw [not_zero_lt_iff, or_iff_right sqrt_not_neg]
theorem fits_neg {u : UnpackedFloat} (h : Fits u) :
    Fits u.neg ∧ valueOf u.neg = -valueOf u := by
  match u, h with
  | .zero s, _ => exact ⟨trivial, neg_zero.symm⟩
  | .finite s m e hm, h => exact ⟨h, signed_neg s _⟩

theorem fits_abs {u : UnpackedFloat} (h : Fits u) :
    Fits u.abs ∧ valueOf u.abs = |valueOf u| := by
  match u, h with
  | .zero s, _ => exact ⟨trivial, abs_zero.symm⟩
  | .finite s m e hm, h =>
      have hpos : (0 : ℝ) ≤ m * 2 ^ e := by positivity
      refine ⟨h, ?_⟩
      rw [valueOf, abs_signed, abs_of_nonneg hpos]
      rfl

theorem neg_exact (hx : x.isFinite = true) :
    (-x).isFinite = true ∧ toReal (-x) = -toReal x := by
  obtain ⟨hfits, hvalue⟩ := fits_neg (fits_of_isFinite hx)
  exact ⟨isFinite_ofModel hfits, (toReal_ofModel hfits).trans hvalue⟩

theorem abs_exact (hx : x.isFinite = true) :
    x.abs.isFinite = true ∧ toReal x.abs = |toReal x| := by
  obtain ⟨hfits, hvalue⟩ := fits_abs (fits_of_isFinite hx)
  exact ⟨isFinite_ofModel hfits, (toReal_ofModel hfits).trans hvalue⟩

end Meristem
