import Meristem.Proofs.Rounded.Order

/-!
The grid of the doubles. An integer of at most 53 bits at an exponent in range is a double, and
every double is a multiple of the smallest one. So is what two doubles come to: a sum or a
difference that is too small for 53 bits is exact, and any other is off by a small part of itself,
however small its operands are.
-/

namespace Meristem

open Float.Model Float.Model.UnpackedFloat

/-- An integer of at most 53 bits at an exponent in range is a double. -/
theorem exists_double_scaled {n q : ℤ} (hn : n.natAbs < 2 ^ 53) (hlow : -1074 ≤ q)
    (hhigh : q ≤ 971) :
    ∃ w : Float, w.isFinite = true ∧ toReal w = n * 2 ^ q := by
  have htwo : (2 : ℝ) ≠ 0 := by norm_num
  by_cases hzero : n = 0
  · refine ⟨0, rfl, ?_⟩
    rw [hzero, Int.cast_zero, zero_mul]
    rfl
  obtain ⟨s, m, hm, hshort, hs⟩ :
      ∃ (s : Sign) (m : ℕ), m ≠ 0 ∧ m < 2 ^ 53 ∧ signed s m = n := by
    rcases Int.natAbs_eq n with hpos | hneg
    · refine ⟨.positive, n.natAbs, by omega, hn, ?_⟩
      rw [signed, ← Int.cast_natCast, ← hpos]
    · refine ⟨.negative, n.natAbs, by omega, hn, ?_⟩
      rw [signed, ← Int.cast_natCast, ← Int.cast_neg, ← hneg]
  have hlog : m.log2 ≤ 52 := Nat.lt_succ_iff.mp ((Nat.log2_lt hm).mpr hshort)
  -- as many bits to the left as the mantissa has room for and the exponent allows
  obtain ⟨k, hk, hfull⟩ :
      ∃ k : ℕ, m.log2 + k ≤ 52 ∧ (m.log2 + k = 52 ∧ -1074 ≤ q - k ∨ q - k = -1074) := by
    by_cases hroom : -1074 ≤ q - (52 - m.log2 : ℕ)
    · exact ⟨52 - m.log2, by omega, Or.inl ⟨by omega, hroom⟩⟩
    · exact ⟨(q + 1074).toNat, by omega, Or.inr (by omega)⟩
  have hupper : m * 2 ^ k < 2 ^ 53 := by
    calc m * 2 ^ k < 2 ^ (m.log2 + 1) * 2 ^ k :=
          Nat.mul_lt_mul_of_pos_right Nat.lt_log2_self (Nat.two_pow_pos k)
      _ = 2 ^ (m.log2 + 1 + k) := (pow_add _ _ _).symm
      _ ≤ 2 ^ 53 := Nat.pow_le_pow_right (by omega) (by omega)
  have hpos : 0 < m * 2 ^ k := by positivity
  have hfits : Fits (.finite s (m * 2 ^ k) (q - k) hpos) := by
    refine ⟨hupper, by omega, by omega, ?_⟩
    rcases hfull with ⟨hbits, -⟩ | hlowest
    · left
      rw [← hbits, pow_add]
      exact Nat.mul_le_mul_right _ (Nat.log2_self_le hm)
    · exact Or.inr hlowest
  refine ⟨_, isFinite_ofModel hfits, ?_⟩
  rw [toReal_ofModel hfits, valueOf, ← hs, signed_mul_right]
  congr 1
  rw [zpow_sub₀ htwo, zpow_natCast]
  push_cast
  field_simp

/-- Every double is a multiple of the smallest one. -/
theorem exists_multiple {x : Float} (hx : x.isFinite = true) :
    ∃ k : ℤ, toReal x = k * 2 ^ (-1074 : ℤ) :=
  (multiple_or_short (fits_of_isFinite hx).trim (-1074)).resolve_right
    fun h => absurd h.1 (lt_irrefl _)

/-- How much of a sum one addition can lose or gain. -/
noncomputable def slip : ℝ := (1 / 2 ^ 52 : ℚ)

theorem slip_eq : slip = 1 / 2 ^ 52 := by norm_num [slip]

theorem slip_pos : 0 < slip := by
  rw [slip_eq]
  positivity

/-- What is a multiple of the smallest double is rounded by a small part of itself. -/
theorem Nearest.relative {z : Float} {r : ℝ} (h : Nearest z r) (hz : z.isFinite = true) {k : ℤ}
    (hk : r = k * 2 ^ (-1074 : ℤ)) : |toReal z - r| ≤ slip * |r| := by
  have hslip := slip_pos
  by_cases hshort : k.natAbs < 2 ^ 53
  · obtain ⟨w, hw, hvalue⟩ := exists_double_scaled hshort le_rfl (by norm_num)
    obtain ⟨-, hexact⟩ := h.exact hw (hvalue.trans hk.symm)
    rw [hexact, sub_self, abs_zero]
    positivity
  · have hlong : (2 : ℝ) ^ 53 ≤ |(k : ℝ)| := by
      have hnat : 2 ^ 53 ≤ k.natAbs := not_lt.mp hshort
      rw [← Int.cast_abs, Int.abs_eq_natAbs]
      exact_mod_cast hnat
    have hsmallest : (2 : ℝ) ^ (-1075 : ℤ) ≤ |r| * 2 ^ (-54 : ℤ) := by
      have htwo : (2 : ℝ) ≠ 0 := by norm_num
      rw [hk, abs_mul, abs_of_pos (by positivity : (0 : ℝ) < 2 ^ (-1074 : ℤ))]
      calc (2 : ℝ) ^ (-1075 : ℤ) = 2 ^ (53 : ℤ) * 2 ^ (-1074 : ℤ) * 2 ^ (-54 : ℤ) := by
            rw [← zpow_add₀ htwo, ← zpow_add₀ htwo]
            norm_num
        _ ≤ |(k : ℝ)| * 2 ^ (-1074 : ℤ) * 2 ^ (-54 : ℤ) := by
            gcongr
            exact_mod_cast hlong
    have hnear := h.near hz
    have hlarge := abs_nonneg r
    unfold halfStep at hnear
    rw [slip_eq]
    generalize (2 : ℝ) ^ (-1075 : ℤ) = smallest at hnear hsmallest
    norm_num at hnear hsmallest ⊢
    linarith

variable {x y : Float}

theorem add_relative (hx : x.isFinite = true) (hy : y.isFinite = true)
    (h : (x + y).isFinite = true) :
    |toReal (x + y) - (toReal x + toReal y)| ≤ slip * |toReal x + toReal y| := by
  obtain ⟨j, hj⟩ := exists_multiple hx
  obtain ⟨k, hk⟩ := exists_multiple hy
  apply (add_nearest hx hy).relative h (k := j + k)
  rw [hj, hk]
  push_cast
  ring

theorem sub_relative (hx : x.isFinite = true) (hy : y.isFinite = true)
    (h : (x - y).isFinite = true) :
    |toReal (x - y) - (toReal x - toReal y)| ≤ slip * |toReal x - toReal y| := by
  obtain ⟨j, hj⟩ := exists_multiple hx
  obtain ⟨k, hk⟩ := exists_multiple hy
  apply (sub_nearest hx hy).relative h (k := j - k)
  rw [hj, hk]
  push_cast
  ring

end Meristem
