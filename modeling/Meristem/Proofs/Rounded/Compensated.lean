import Meristem.Proofs.Rounded.Sum

/-!
The sum that carries its rounding errors on. What an addition loses is computed from its result and
taken off the next number, so that sum and carry together miss the exact sum only by what is lost
in computing the carry. For one number that is a small part of a small part, and shares of the unit
interval are added almost as exactly as by a single addition, however many there are.
-/

namespace Meristem

open Float.Model Float.Model.UnpackedFloat

/-- One number more, with what the last addition lost taken off it. -/
def carry (state : Float × Float) (x : Float) : Float × Float :=
  let y := x - state.2
  let next := state.1 + y
  (next, (next - state.1) - y)

theorem compensatedSum_cons (first : Float) (rest : List Float) :
    compensatedSum (first :: rest) = (rest.foldl carry (first, 0.0)).1 := rfl

/-- After `n` additions, sum and carry together stand for numbers that come to `r`. -/
structure Carries (n : ℕ) (r : ℝ) (state : Float × Float) : Prop where
  sum_finite : state.1.isFinite = true
  lost_finite : state.2.isFinite = true
  lost_small : |toReal state.2| ≤ 8 * slip
  near : |toReal state.1 - toReal state.2 - r| ≤ slip * (2 * r + 32 * slip * n)

theorem carries_first {x : Float} (hx : x.isFinite = true) (hnonneg : 0 ≤ toReal x) :
    Carries 0 (toReal x) (x, 0.0) := by
  have hslip := slip_pos
  refine ⟨hx, (rfl : (0.0 : Float).isFinite = true), ?_, ?_⟩
  · rw [toReal_zero, abs_zero]
    positivity
  · rw [toReal_zero, sub_zero, sub_self, abs_zero]
    positivity

theorem isFinite_of_small {z : Float} {r : ℝ} (h : Nearest z r) (hr : |r| ≤ 4) :
    z.isFinite = true := by
  apply h.isFinite
  calc |r| ≤ 2 ^ (2 : ℤ) := by linarith
    _ ≤ 2 ^ (1000 : ℤ) := zpow_le_zpow_right₀ (by norm_num) (by norm_num)

section Within

variable {x y : Float} {bound : ℝ}

theorem add_within (hx : x.isFinite = true) (hy : y.isFinite = true)
    (h : |toReal x + toReal y| ≤ bound) (hbound : bound ≤ 4) :
    (x + y).isFinite = true ∧ |toReal (x + y) - (toReal x + toReal y)| ≤ slip * bound := by
  have hfinite := isFinite_of_small (add_nearest hx hy) (h.trans hbound)
  exact ⟨hfinite, (add_relative hx hy hfinite).trans (mul_le_mul_of_nonneg_left h slip_pos.le)⟩

theorem sub_within (hx : x.isFinite = true) (hy : y.isFinite = true)
    (h : |toReal x - toReal y| ≤ bound) (hbound : bound ≤ 4) :
    (x - y).isFinite = true ∧ |toReal (x - y) - (toReal x - toReal y)| ≤ slip * bound := by
  have hfinite := isFinite_of_small (sub_nearest hx hy) (h.trans hbound)
  exact ⟨hfinite, (sub_relative hx hy hfinite).trans (mul_le_mul_of_nonneg_left h slip_pos.le)⟩

end Within

theorem Carries.step {n : ℕ} {r : ℝ} {state : Float × Float} (h : Carries n r state)
    (hn : n < 2 ^ 63) (hr : 0 ≤ r) {x : Float} (hx : Ample x) (hsum : r + toReal x ≤ 3 / 2) :
    Carries (n + 1) (r + toReal x) (carry state x) := by
  obtain ⟨s, c⟩ := state
  obtain ⟨hs, hc, hsmall, hnear⟩ := h
  obtain ⟨hx, hxnonneg⟩ := hx
  have hcount : (n : ℝ) < 2 ^ 63 := by exact_mod_cast hn
  simp only [carry]
  simp only [slip_eq, abs_le] at hsmall hnear
  -- each of the four operations is off by a small part of its result
  have hyin : |toReal x - toReal c| ≤ toReal x + 8 * slip := by
    rw [slip_eq, abs_le]
    constructor <;> linarith
  obtain ⟨hy, hyerror⟩ := sub_within hx hc hyin (by rw [slip_eq]; linarith)
  rw [slip_eq, abs_le] at hyerror
  generalize x - c = y at hy hyerror ⊢
  have htin : |toReal s + toReal y| ≤ 2 := by
    rw [abs_le]
    constructor <;> linarith
  obtain ⟨ht, hterror⟩ := add_within hs hy htin (by norm_num)
  rw [slip_eq, abs_le] at hterror
  generalize s + y = t at ht hterror ⊢
  have hvin : |toReal t - toReal s| ≤ toReal x + 12 * slip := by
    rw [slip_eq, abs_le]
    constructor <;> linarith
  obtain ⟨hv, hverror⟩ := sub_within ht hs hvin (by rw [slip_eq]; linarith)
  rw [slip_eq, abs_le] at hverror
  generalize t - s = v at hv hverror ⊢
  have hlin : |toReal v - toReal y| ≤ 4 * slip := by
    rw [slip_eq, abs_le]
    constructor <;> linarith
  obtain ⟨hl, hlerror⟩ := sub_within hv hy hlin (by norm_num [slip_eq])
  rw [slip_eq, abs_le] at hlerror hlin
  generalize v - y = lost at hl hlerror ⊢
  refine ⟨ht, hl, ?_, ?_⟩
  · rw [slip_eq, abs_le]
    constructor <;> linarith
  · rw [slip_eq, abs_le]
    push_cast
    constructor <;> linarith

theorem Carries.foldl {n : ℕ} {r : ℝ} {state : Float × Float} (h : Carries n r state)
    (hr : 0 ≤ r) {xs : List Float} (hxs : ∀ x ∈ xs, Ample x) (hsum : r + worth xs ≤ 3 / 2)
    (hlength : n + xs.length ≤ 2 ^ 63) :
    Carries (n + xs.length) (r + worth xs) (xs.foldl carry state) := by
  induction xs generalizing n r state with
  | nil => simpa using h
  | cons x rest ih =>
      obtain ⟨hx, hrest⟩ := List.forall_mem_cons.mp hxs
      have hworth := worth_nonneg hrest
      rw [worth_cons, ← add_assoc] at hsum ⊢
      rw [List.length_cons, ← Nat.add_assoc, Nat.add_right_comm] at hlength ⊢
      have hnext := h.step (by omega) hr hx (by linarith)
      exact ih hnext (add_nonneg hr hx.2) hrest hsum hlength

/-- However many numbers there are, their sum is off by much less than the tolerance of the draws.
-/
theorem compensatedSum_near {xs : List Float} (hxs : ∀ x ∈ xs, Ample x)
    (hworth : worth xs ≤ 3 / 2) (hlength : xs.length < 2 ^ 63) :
    (compensatedSum xs).isFinite = true ∧
      |toReal (compensatedSum xs) - worth xs| ≤ 1 / 2 ^ 34 := by
  cases xs with
  | nil =>
      have hzero : toReal (compensatedSum ([] : List Float)) = 0 := rfl
      refine ⟨rfl, ?_⟩
      rw [hzero, worth_nil, sub_zero, abs_zero]
      positivity
  | cons first rest =>
      obtain ⟨hfirst, hrest⟩ := List.forall_mem_cons.mp hxs
      rw [worth_cons] at hworth ⊢
      rw [List.length_cons] at hlength
      obtain ⟨hfinite, -, hsmall, hnear⟩ :=
        (carries_first hfirst.1 hfirst.2).foldl hfirst.2 hrest hworth (by omega)
      have hcount : ((0 + rest.length : ℕ) : ℝ) < 2 ^ 63 := by
        exact_mod_cast (by omega : 0 + rest.length < 2 ^ 63)
      rw [compensatedSum_cons]
      refine ⟨hfinite, ?_⟩
      rw [slip_eq, abs_le] at hsmall hnear
      rw [abs_le]
      constructor <;> linarith

end Meristem
