import Meristem.Proofs.Rounded.Approx
import Meristem.Proofs.Rounded.Grid

/-!
Three functions on doubles are not described by one rounding: the sine, the cosine and the integer
below a number come from a library. They are left open here, up to what such a library promises. For
small angles its sine and cosine are right to some forty bits, and its integers are exact. A library
that returns the nearest doubles keeps these promises.
-/

namespace Meristem

/-- The functions on doubles that come from a library. -/
class Libm where
  sin : Float → Float
  cos : Float → Float
  floor : Float → Float

namespace Libm

/-- The arithmetic of doubles with the functions of a library. -/
instance scalar [Libm] : Scalar Float where
  sqrt := Float.sqrt
  sin := Libm.sin
  cos := Libm.cos
  floor := Libm.floor
  pi := 3.141592653589793
  isFinite := Float.isFinite
  single := Binary32.round

/-- The library that programs run with. -/
@[reducible] def native : Libm := ⟨Float.sin, Float.cos, Float.floor⟩

/-- With it the arithmetic is the one that drawings are computed in. -/
theorem scalar_native : @scalar native = instScalarFloat := rfl

/-- What a library promises. -/
structure Accurate [Libm] : Prop where
  sin : ∀ x : Float, x.isFinite = true → |toReal x| ≤ 1 →
    Approx 1 grain (Libm.sin x) (Real.sin (toReal x))
  cos : ∀ x : Float, x.isFinite = true → |toReal x| ≤ 1 →
    Approx 1 grain (Libm.cos x) (Real.cos (toReal x))
  floor : ∀ x : Float, x.isFinite = true →
    (Libm.floor x).isFinite = true ∧ toReal (Libm.floor x) = ⌊toReal x⌋

end Libm

open Float.Model Float.Model.UnpackedFloat

/-- A number that is not negative lies at its integer part or in one of the halves above it. -/
theorem exists_stands {x : ℝ} (hx : 0 ≤ x) :
    ∃ acc, Stands (.ofMantissaAndAccuracy ⌊x⌋₊ acc) x := by
  have hlow := Nat.floor_le hx
  have hhigh := Nat.lt_floor_add_one x
  rcases hlow.eq_or_lt with heq | hlt
  · refine ⟨.exact, ?_⟩
    have hstands := stands_exact ⌊x⌋₊
    rwa [heq] at hstands
  rcases lt_trichotomy x (⌊x⌋₊ + 1 / 2) with hbelow | heq | habove
  · exact ⟨.inexact .lt, stands_below_half hlt hbelow⟩
  · refine ⟨.inexact .eq, ?_⟩
    have hstands := stands_at_half ⌊x⌋₊
    rwa [← heq] at hstands
  · exact ⟨.inexact .gt, stands_above_half habove hhigh⟩

/-- Every number has a nearest double. -/
theorem exists_nearest (r : ℝ) : ∃ z, Nearest z r := by
  have htwo : (2 : ℝ) ≠ 0 := by norm_num
  obtain ⟨s, hs⟩ : ∃ s, signed s |r| = r := by
    rcases le_total 0 r with hpos | hneg
    · exact ⟨.positive, abs_of_nonneg hpos⟩
    · refine ⟨.negative, ?_⟩
      rw [signed, abs_of_nonpos hneg, neg_neg]
  have hnonneg : 0 ≤ |r| * 2 ^ (1074 : ℤ) := by positivity
  obtain ⟨acc, hacc⟩ := exists_stands hnonneg
  have hround := rounds_roundWithAccuracy s (le_quantum (Or.inl le_rfl)) hacc
  have hvalue : |r| * (2 : ℝ) ^ (1074 : ℤ) * 2 ^ (-1074 : ℤ) = |r| := by
    rw [mul_assoc, ← zpow_add₀ htwo]
    norm_num
  rw [hvalue, hs] at hround
  exact ⟨_, hround.nearest⟩

section Integers

/-- An integer of at most 53 bits is a double. -/
theorem exists_double_of_natAbs_lt {n : ℤ} (hn : n.natAbs < 2 ^ 53) :
    ∃ w : Float, w.isFinite = true ∧ toReal w = n := by
  have hscaled := exists_double_scaled hn (q := 0) (by norm_num) (by norm_num)
  simpa using hscaled

/-- The integer below a double is a double. -/
theorem exists_double_floor {x : Float} (hx : x.isFinite = true) :
    ∃ w : Float, w.isFinite = true ∧ toReal w = ⌊toReal x⌋ := by
  by_cases hsmall : |toReal x| < 2 ^ (52 : ℤ)
  · apply exists_double_of_natAbs_lt
    have hfloor := Int.floor_le (toReal x)
    have hnext := Int.lt_floor_add_one (toReal x)
    obtain ⟨hlow, hhigh⟩ := abs_lt.mp hsmall
    have hbelow : (⌊toReal x⌋ : ℝ) < 2 ^ 52 := by
      norm_num at hhigh ⊢
      linarith
    have habove : (-(2 ^ 52) - 1 : ℝ) < ⌊toReal x⌋ := by
      norm_num at hlow ⊢
      linarith
    have hbelow' : ⌊toReal x⌋ < 2 ^ 52 := by exact_mod_cast hbelow
    have habove' : -(2 ^ 52) - 1 < ⌊toReal x⌋ := by exact_mod_cast habove
    omega
  · refine ⟨x, hx, ?_⟩
    obtain ⟨j, hj⟩ : ∃ j : ℤ, toReal x = j * 2 ^ (0 : ℤ) := by
      apply (multiple_or_short (fits_of_isFinite hx).trim 0).resolve_right
      rintro ⟨-, hshort⟩
      rw [zero_add] at hshort
      exact hsmall hshort
    rw [zpow_zero, mul_one] at hj
    rw [hj, Int.floor_intCast]

end Integers

namespace Libm

/-- A library that returns the nearest doubles. -/
@[reducible] noncomputable def ideal : Libm where
  sin x := (exists_nearest (Real.sin (toReal x))).choose
  cos x := (exists_nearest (Real.cos (toReal x))).choose
  floor x := (exists_nearest ⌊toReal x⌋).choose

theorem approx_of_nearest {z : Float} {r : ℝ} (h : Nearest z r) (hr : |r| ≤ 1) :
    Approx 1 grain z r := by
  have hmoderate : |r| ≤ 2 ^ 14 := hr.trans (by norm_num)
  have happrox := h.approx hmoderate hr (by rw [sub_self, abs_zero])
  rwa [zero_add] at happrox

theorem ideal_accurate : @Accurate ideal := by
  refine @Accurate.mk ideal ?_ ?_ ?_
  · intro x _ _
    exact approx_of_nearest (exists_nearest _).choose_spec (Real.abs_sin_le_one _)
  · intro x _ _
    exact approx_of_nearest (exists_nearest _).choose_spec (Real.abs_cos_le_one _)
  · intro x hx
    obtain ⟨w, hw, hvalue⟩ := exists_double_floor hx
    exact (exists_nearest (⌊toReal x⌋ : ℝ)).choose_spec.exact hw hvalue

end Libm
end Meristem
