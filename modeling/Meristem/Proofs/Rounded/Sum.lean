import Meristem.Proofs.Rounded.Grid
import Meristem.Proofs.Addition

/-!
Sums of doubles that are not negative. Nothing is lost to cancellation, so what is computed for
many numbers is off by a small part of itself for each addition that a number goes through, and not
more. In the sum of a table of weights these are few: the numbers are added in lanes and in halves,
and twice as many numbers take one more addition each. A sum that is out of range is infinite and
nothing else.
-/

namespace Meristem

open Float.Model Float.Model.UnpackedFloat

/-- What the numbers of a list of doubles come to, exactly. -/
noncomputable def worth (xs : List Float) : ℝ := (xs.map toReal).sum

@[simp] theorem worth_nil : worth [] = 0 := rfl

@[simp] theorem worth_cons (x : Float) (xs : List Float) :
    worth (x :: xs) = toReal x + worth xs := by
  simp [worth]

/-- A finite double that is not negative. -/
def Ample (x : Float) : Prop := x.isFinite = true ∧ 0 ≤ toReal x

theorem worth_nonneg {xs : List Float} (h : ∀ x ∈ xs, Ample x) : 0 ≤ worth xs := by
  apply List.sum_nonneg
  intro r hr
  obtain ⟨x, hx, rfl⟩ := List.mem_map.mp hr
  exact (h x hx).2

/-- Positive infinity. -/
def Boundless (z : Float) : Prop := z.toModel.unpack = .infinity .positive

section Overflow

variable {x y : Float}

theorem Rounds.boundless {u : UnpackedFloat} {r : ℝ} (h : Rounds u r) (hr : 0 ≤ r)
    (hover : (Float.ofModel (Float.Model.pack u)).isFinite = false) :
    Boundless (.ofModel (Float.Model.pack u)) := by
  rcases fits_or_overflows h.trim with hfits | ⟨s, m, e, hm, rfl, he, hlong⟩
  · rw [isFinite_ofModel hfits] at hover
    exact absurd hover (by simp)
  · cases s with
    | positive => exact unpack_pack_overflow .positive hm he
    | negative =>
        -- zero would be closer than anything negative
        have hzero := h.closest (.zero .positive) trivial
        have hsize : (0 : ℝ) < m * 2 ^ e := by positivity
        rw [valueOf_zero, zero_sub, abs_neg, abs_of_nonneg hr, valueOf, signed, abs_le] at hzero
        linarith [hzero.1]

/-- A sum that is infinite on one side is infinite. -/
theorem boundless_add (hx : Ample x ∨ Boundless x) (hy : Ample y ∨ Boundless y)
    (h : (x + y).isFinite = false) : Boundless (x + y) := by
  have hsum : Boundless (x + y) ↔ (Float.Model.pack
      (UnpackedFloat.add Format.binary64 x.toModel.unpack y.toModel.unpack)).unpack =
        .infinity .positive := Iff.rfl
  have hpack : (Float.Model.pack (.infinity .positive)).unpack = .infinity .positive :=
    unpack_pack_special rfl
  rcases hx with hx | hx
  · have hfits := fits_of_isFinite hx.1
    rcases hy with hy | hy
    · exact (rounds_add hfits.trim (fits_of_isFinite hy.1).trim).boundless
        (add_nonneg hx.2 hy.2) h
    · rw [hsum, hy]
      match x.toModel.unpack, hfits with
      | .zero s, _ => exact hpack
      | .finite s m e hm, _ => exact hpack
  · rw [hsum, hx]
    rcases hy with hy | hy
    · have hfits := fits_of_isFinite hy.1
      match y.toModel.unpack, hfits with
      | .zero s, _ => exact hpack
      | .finite s m e hm, _ => exact hpack
    · rw [hy]
      exact hpack

end Overflow

theorem slip_lt_one : slip < 1 := by norm_num [slip_eq]

section Ample

variable {x y : Float}

theorem add_between (hx : Ample x) (hy : Ample y) (h : (x + y).isFinite = true) :
    (toReal x + toReal y) * (1 - slip) ≤ toReal (x + y) ∧
      toReal (x + y) ≤ (toReal x + toReal y) * (1 + slip) := by
  have hrelative := add_relative hx.1 hy.1 h
  rw [abs_of_nonneg (add_nonneg hx.2 hy.2), abs_le] at hrelative
  constructor
  · linarith [hrelative.1]
  · linarith [hrelative.2]

theorem ample_add (hx : Ample x) (hy : Ample y) (h : (x + y).isFinite = true) : Ample (x + y) :=
  ⟨h, (add_nearest hx.1 hy.1).nonneg h (add_nonneg hx.2 hy.2)⟩

end Ample

/-- The largest double. -/
noncomputable def largest : ℝ := (2 ^ (1024 : ℤ) - 2 ^ (971 : ℤ) : ℚ)

theorem largest_eq : largest = 2 ^ (1024 : ℤ) - 2 ^ (971 : ℤ) := by
  rw [largest, Rat.cast_sub, Rat.cast_zpow, Rat.cast_zpow, Rat.cast_ofNat]

/-- The double is computed from numbers that are not negative and come to `s`, none of which goes
through more than `d` additions. -/
structure Sums (d : ℕ) (z : Float) (s : ℝ) : Prop where
  nonneg : 0 ≤ s
  shape : Ample z ∨ Boundless z
  finite : s * (1 + slip) ^ d ≤ largest → z.isFinite = true
  low : z.isFinite = true → s * (1 - slip) ^ d ≤ toReal z
  high : z.isFinite = true → toReal z ≤ s * (1 + slip) ^ d

namespace Sums

variable {d : ℕ} {x y z : Float} {r s : ℝ}

theorem self (hx : Ample x) : Sums 0 x (toReal x) where
  nonneg := hx.2
  shape := Or.inl hx
  finite := fun _ => hx.1
  low := fun _ => by rw [pow_zero, mul_one]
  high := fun _ => by rw [pow_zero, mul_one]

theorem ample (h : Sums d z s) (hz : z.isFinite = true) : Ample z := by
  rcases h.shape with hample | hinfinite
  · exact hample
  · change z.toModel.unpack.isFinite = true at hz
    rw [hinfinite] at hz
    exact absurd hz (by simp [UnpackedFloat.isFinite])

theorem congr (h : Sums d z r) (hrs : r = s) : Sums d z s := hrs ▸ h

theorem mono (h : Sums d z s) {e : ℕ} (hde : d ≤ e) : Sums e z s := by
  have hslip := slip_pos
  have hgrow : s * (1 + slip) ^ d ≤ s * (1 + slip) ^ e :=
    mul_le_mul_of_nonneg_left (pow_le_pow_right₀ (by linarith) hde) h.nonneg
  have hshrink : s * (1 - slip) ^ e ≤ s * (1 - slip) ^ d :=
    mul_le_mul_of_nonneg_left
      (pow_le_pow_of_le_one (by linarith [slip_lt_one]) (by linarith) hde) h.nonneg
  exact ⟨h.nonneg, h.shape, fun hs => h.finite (hgrow.trans hs),
    fun hz => hshrink.trans (h.low hz), fun hz => (h.high hz).trans hgrow⟩

/-- One more addition. -/
theorem add (hx : Sums d x r) (hy : Sums d y s) : Sums (d + 1) (x + y) (r + s) := by
  have hslip := slip_pos
  have hr := hx.nonneg
  have hs := hy.nonneg
  have hrgrown : 0 ≤ r * (1 + slip) ^ d := by positivity
  have hsgrown : 0 ≤ s * (1 + slip) ^ d := by positivity
  have hgrown : (r + s) * (1 + slip) ^ (d + 1) =
      (r * (1 + slip) ^ d + s * (1 + slip) ^ d) * (1 + slip) := by ring
  have hparts (hz : (x + y).isFinite = true) : Ample x ∧ Ample y := by
    obtain ⟨hxfinite, hyfinite⟩ := isFinite_of_add hz
    exact ⟨hx.ample hxfinite, hy.ample hyfinite⟩
  refine ⟨add_nonneg hr hs, ?_, ?_, ?_, ?_⟩
  · cases hz : (x + y).isFinite with
    | true =>
        obtain ⟨hxample, hyample⟩ := hparts hz
        exact Or.inl (ample_add hxample hyample hz)
    | false => exact Or.inr (boundless_add hx.shape hy.shape hz)
  · intro hlarge
    rw [hgrown, mul_one_add] at hlarge
    have hgain : 0 ≤ (r * (1 + slip) ^ d + s * (1 + slip) ^ d) * slip := by positivity
    have hxfinite := hx.finite (by linarith)
    have hyfinite := hy.finite (by linarith)
    apply (add_nearest hxfinite hyfinite).finite
    apply lt_overflow
    rw [abs_of_nonneg (add_nonneg (hx.ample hxfinite).2 (hy.ample hyfinite).2), ← largest_eq]
    linarith [hx.high hxfinite, hy.high hyfinite]
  · intro hz
    obtain ⟨hxample, hyample⟩ := hparts hz
    calc (r + s) * (1 - slip) ^ (d + 1)
        = (r * (1 - slip) ^ d + s * (1 - slip) ^ d) * (1 - slip) := by ring
      _ ≤ (toReal x + toReal y) * (1 - slip) := by
          apply mul_le_mul_of_nonneg_right _ (by linarith [slip_lt_one])
          exact add_le_add (hx.low hxample.1) (hy.low hyample.1)
      _ ≤ toReal (x + y) := (add_between hxample hyample hz).1
  · intro hz
    obtain ⟨hxample, hyample⟩ := hparts hz
    calc toReal (x + y) ≤ (toReal x + toReal y) * (1 + slip) :=
          (add_between hxample hyample hz).2
      _ ≤ (r * (1 + slip) ^ d + s * (1 + slip) ^ d) * (1 + slip) := by
          apply mul_le_mul_of_nonneg_right _ (by linarith)
          exact add_le_add (hx.high hxample.1) (hy.high hyample.1)
      _ = (r + s) * (1 + slip) ^ (d + 1) := hgrown.symm

end Sums

theorem additive_sums : Additive Sums where
  zero := (Sums.self ⟨rfl, toReal_zero.ge⟩).congr toReal_zero
  mono := fun h hde => h.mono hde
  add := Sums.add

/-- How far a sum of weights may be off, as a part of it. -/
noncomputable def slack : ℝ := (1 / 2 ^ 44 : ℚ)

theorem slack_eq : slack = 1 / 2 ^ 44 := by norm_num [slack]

theorem grown_le : (1 + slip) ^ 188 ≤ 1 + slack := by
  rw [slip_eq, slack_eq]
  norm_num

section Total

variable {xs : List Float} (hxs : ∀ x ∈ xs, Ample x) (hlength : xs.length < 2 ^ 63)

include hxs hlength

theorem sums_total : Sums 188 (total xs) (worth xs) :=
  additive_sums.total (k := 57) (fun x hx => Sums.self (hxs x hx)) (hlength.le.trans (by norm_num))

theorem total_near (hfinite : (total xs).isFinite = true) :
    |toReal (total xs) - worth xs| ≤ slack * worth xs := by
  have hsums := sums_total hxs hlength
  have hshrink : 1 - slack ≤ (1 - slip) ^ 188 := by
    rw [slip_eq, slack_eq]
    norm_num
  have hlow := (mul_le_mul_of_nonneg_left hshrink hsums.nonneg).trans (hsums.low hfinite)
  have hhigh := (hsums.high hfinite).trans (mul_le_mul_of_nonneg_left grown_le hsums.nonneg)
  rw [abs_le]
  constructor
  · linarith only [hlow]
  · linarith only [hhigh]

/-- The sum is finite where the numbers are in range together, but for a small part of them. -/
theorem total_isFinite (hworth : worth xs * (1 + slack) ≤ largest) : (total xs).isFinite = true :=
  (sums_total hxs hlength).finite
    ((mul_le_mul_of_nonneg_left grown_le (worth_nonneg hxs)).trans hworth)

/-- The sum is finite only where the numbers are in range together, but for a small part of them. -/
theorem worth_le_of_total (hfinite : (total xs).isFinite = true) :
    worth xs * (1 - slack) ≤ largest := by
  have hnear := (abs_le.mp (total_near hxs hlength hfinite)).1
  calc worth xs * (1 - slack) ≤ toReal (total xs) := by linarith only [hnear]
    _ ≤ |toReal (total xs)| := le_abs_self _
    _ ≤ largest := (abs_toReal_le hfinite).trans_eq largest_eq.symm

theorem total_boundless (hinfinite : (total xs).isFinite = false) : Boundless (total xs) := by
  rcases (sums_total hxs hlength).shape with hample | hboundless
  · rw [hample.1] at hinfinite
    exact absurd hinfinite (by simp)
  · exact hboundless

end Total

end Meristem
