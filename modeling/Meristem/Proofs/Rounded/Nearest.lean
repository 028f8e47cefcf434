import Mathlib

/-!
Rounding to the nearest double. The operations on doubles compute a mantissa, an exponent and what
is known of the rest, and round that once. Here the rounding is compared with the real number that
the three stand for: the result has at most 53 bits, and it is off by at most half of the smallest
step that such a result can make.
-/

namespace Meristem

open Float.Model Float.Model.UnpackedFloat

/-- The number that a mantissa and its round bit make. -/
noncomputable def low (em : ExtendedMantissa) : ℝ := em.mantissa + if em.roundBit then 1 / 2 else 0

/-- How far the nearest double may be from a number. -/
noncomputable def halfStep (r : ℝ) : ℝ := |r| * 2 ^ (-53 : ℤ) + 2 ^ (-1075 : ℤ)

/-- A mantissa with its two residual bits stands for a number. -/
def Stands (em : ExtendedMantissa) (x : ℝ) : Prop :=
  if em.stickyBit then low em < x ∧ x < low em + 1 / 2 else x = low em

theorem Stands.le {em : ExtendedMantissa} {x : ℝ} (h : Stands em x) : (em.mantissa : ℝ) ≤ x := by
  have hlow : (em.mantissa : ℝ) ≤ low em := by
    unfold low
    split
    · linarith
    · linarith
  unfold Stands at h
  split at h
  · linarith [h.1]
  · linarith

theorem low_of_clear {em : ExtendedMantissa} (h : em.roundBit = false) : low em = em.mantissa := by
  simp [low, h]

theorem low_of_set {em : ExtendedMantissa} (h : em.roundBit = true) :
    low em = em.mantissa + 1 / 2 := by
  simp [low, h]

/-- Half of a mantissa is the shorter mantissa and its round bit. -/
theorem low_shiftRightOne (em : ExtendedMantissa) : low em.shiftRightOne = em.mantissa / 2 := by
  have hsplit : (em.mantissa : ℝ) = 2 * (em.mantissa / 2 : ℕ) + (em.mantissa % 2 : ℕ) := by
    exact_mod_cast (Nat.div_add_mod em.mantissa 2).symm
  rcases Nat.mod_two_eq_zero_or_one em.mantissa with heven | hodd
  · have hbit : em.shiftRightOne.roundBit = false := by
      simp [ExtendedMantissa.shiftRightOne, heven]
    rw [low_of_clear hbit, hsplit, heven, ExtendedMantissa.shiftRightOne]
    push_cast
    ring
  · have hbit : em.shiftRightOne.roundBit = true := by
      simp [ExtendedMantissa.shiftRightOne, hodd]
    rw [low_of_set hbit, hsplit, hodd, ExtendedMantissa.shiftRightOne]
    push_cast
    ring

theorem Stands.half {em : ExtendedMantissa} {x : ℝ} (h : Stands em x) :
    Stands em.shiftRightOne (x / 2) := by
  have hsticky : em.shiftRightOne.stickyBit = (em.roundBit || em.stickyBit) := rfl
  unfold Stands at h ⊢
  rw [low_shiftRightOne, hsticky]
  cases hround : em.roundBit with
  | false =>
      rw [low_of_clear hround] at h
      cases hrest : em.stickyBit with
      | false =>
          have hx : x = em.mantissa := by simpa [hrest] using h
          simp [hx]
      | true =>
          obtain ⟨hlow, hhigh⟩ : (em.mantissa : ℝ) < x ∧ x < em.mantissa + 1 / 2 := by
            simpa [hrest] using h
          simp only [Bool.or_true, ↓reduceIte]
          constructor
          · linarith
          · linarith
  | true =>
      rw [low_of_set hround] at h
      simp only [Bool.true_or, ↓reduceIte]
      cases hrest : em.stickyBit with
      | false =>
          have hx : x = em.mantissa + 1 / 2 := by simpa [hrest] using h
          rw [hx]
          constructor
          · linarith
          · linarith
      | true =>
          obtain ⟨hlow, hhigh⟩ : em.mantissa + 1 / 2 < x ∧ x < em.mantissa + 1 / 2 + 1 / 2 := by
            simpa [hrest] using h
          constructor
          · linarith
          · linarith

theorem shiftRight_succ (em : ExtendedMantissa) (n : ℕ) :
    em >>> (n + 1) = (em >>> n).shiftRightOne := rfl

theorem Stands.shift {em : ExtendedMantissa} {x : ℝ} (h : Stands em x) (n : ℕ) :
    Stands (em >>> n) (x / 2 ^ n) := by
  induction n with
  | zero =>
      rw [pow_zero, div_one]
      exact h
  | succ n ih =>
      rw [shiftRight_succ, pow_succ, ← div_div]
      exact ih.half

theorem mantissa_shift (em : ExtendedMantissa) (n : ℕ) :
    (em >>> n).mantissa = em.mantissa / 2 ^ n := by
  induction n with
  | zero => exact (Nat.div_one em.mantissa).symm
  | succ n ih =>
      rw [shiftRight_succ, ExtendedMantissa.shiftRightOne, ih, Nat.div_div_eq_div_mul, pow_succ]

theorem roundedMantissa_bounds (em : ExtendedMantissa) :
    em.mantissa ≤ em.roundedMantissa ∧ em.roundedMantissa ≤ em.mantissa + 1 := by
  obtain ⟨m, r, s⟩ := em
  cases r <;> cases s <;>
    simp only [ExtendedMantissa.roundedMantissa, ExtendedMantissa.accuracy,
      Accuracy.roundToNearestEven] <;> omega

/-- A rounded mantissa is off by at most one half. -/
theorem Stands.rounded {em : ExtendedMantissa} {x : ℝ} (h : Stands em x) :
    |(em.roundedMantissa : ℝ) - x| ≤ 1 / 2 := by
  obtain ⟨m, roundBit, stickyBit⟩ := em
  rw [abs_le]
  cases roundBit with
  | false =>
      cases stickyBit with
      | false =>
          have hx : x = m := by simpa [Stands, low] using h
          have hr : ExtendedMantissa.roundedMantissa ⟨m, false, false⟩ = m := rfl
          rw [hr, hx]
          norm_num
      | true =>
          obtain ⟨hlow, hhigh⟩ : (m : ℝ) < x ∧ x < m + 1 / 2 := by simpa [Stands, low] using h
          have hr : ExtendedMantissa.roundedMantissa ⟨m, false, true⟩ = m := rfl
          rw [hr]
          constructor
          · linarith
          · linarith
  | true =>
      cases stickyBit with
      | false =>
          have hx : x = m + 1 / 2 := by simpa [Stands, low] using h
          have hr : ExtendedMantissa.roundedMantissa ⟨m, true, false⟩ = m + m % 2 := rfl
          rw [hr, hx]
          rcases Nat.mod_two_eq_zero_or_one m with hbit | hbit
          · rw [hbit]
            norm_num
          · rw [hbit]
            push_cast
            constructor
            · linarith
            · linarith
      | true =>
          obtain ⟨hlow, hhigh⟩ : m + 1 / 2 < x ∧ x < m + 1 / 2 + 1 / 2 := by
            simpa [Stands, low] using h
          have hr : ExtendedMantissa.roundedMantissa ⟨m, true, true⟩ = m + 1 := rfl
          rw [hr]
          push_cast
          constructor
          · linarith
          · linarith

/-- The exponent to which a mantissa is rounded. -/
def quantum (m : ℕ) (e : ℤ) : ℤ := Format.binary64.targetExponent (totalExponent m e)

theorem quantum_eq (m : ℕ) (e : ℤ) : quantum m e = max (m.log2 + e - 52) (-1074) := by
  have hmin : Format.binary64.minExponent = -1074 := rfl
  have hbits : Format.binary64.mantissaBits = 53 := rfl
  rw [quantum, Format.targetExponent, totalExponent, hmin, hbits]
  congr 1
  push_cast
  ring

theorem shiftToTargetExponent_eq (m : ℕ) (e : ℤ) (acc : Accuracy) :
    shiftToTargetExponent Format.binary64 m e acc =
      (ExtendedMantissa.ofMantissaAndAccuracy m acc >>> (quantum m e - e).toNat,
        e + (quantum m e - e).toNat) := rfl

/-- A mantissa of 53 bits is not shifted. -/
theorem shiftToTargetExponent_small {m : ℕ} {e : ℤ} (hm : m < 2 ^ 53) (he : -1074 ≤ e) :
    shiftToTargetExponent Format.binary64 m e .exact = (⟨m, false, false⟩, e) := by
  have hlog : m.log2 ≤ 52 := by
    by_cases hzero : m = 0
    · rw [hzero]
      decide
    · exact Nat.lt_succ_iff.mp ((Nat.log2_lt hzero).mpr hm)
  have hshift : (quantum m e - e).toNat = 0 := by
    rw [quantum_eq]
    omega
  rw [shiftToTargetExponent_eq, hshift]
  simp only [Nat.cast_zero, add_zero]
  rfl

/-- A mantissa that was rounded up to the next power of two loses its last bit, which is zero. -/
theorem shiftToTargetExponent_carry {e : ℤ} (he : -1074 ≤ e) :
    shiftToTargetExponent Format.binary64 (2 ^ 53) e .exact = (⟨2 ^ 52, false, false⟩, e + 1) := by
  have hshift : (quantum (2 ^ 53) e - e).toNat = 1 := by
    rw [quantum_eq, Nat.log2_two_pow]
    omega
  rw [shiftToTargetExponent_eq, hshift]
  rfl

section Stands

variable {n : ℕ} {x : ℝ}

theorem stands_exact (n : ℕ) : Stands (.ofMantissaAndAccuracy n .exact) n := by
  simp [Stands, low, ExtendedMantissa.ofMantissaAndAccuracy]

theorem stands_below_half (hlow : n < x) (hhigh : x < n + 1 / 2) :
    Stands (.ofMantissaAndAccuracy n (.inexact .lt)) x := by
  simp only [Stands, low, ExtendedMantissa.ofMantissaAndAccuracy]
  constructor
  · simpa using hlow
  · simpa using hhigh

theorem stands_at_half (n : ℕ) : Stands (.ofMantissaAndAccuracy n (.inexact .eq)) (n + 1 / 2) := by
  simp [Stands, low, ExtendedMantissa.ofMantissaAndAccuracy]

theorem stands_above_half (hlow : n + 1 / 2 < x) (hhigh : x < n + 1) :
    Stands (.ofMantissaAndAccuracy n (.inexact .gt)) x := by
  simp only [Stands, low, ExtendedMantissa.ofMantissaAndAccuracy, ↓reduceIte]
  constructor
  · exact hlow
  · linarith

end Stands

/-- A number with a sign. -/
def signed : Sign → ℝ → ℝ
  | .positive, x => x
  | .negative, x => -x

/-- The number that an unpacked double stands for, or zero if it stands for none. -/
noncomputable def valueOf : UnpackedFloat → ℝ
  | .finite s m e _ => signed s (m * 2 ^ e)
  | _ => 0

@[simp] theorem valueOf_zero (s : Sign) : valueOf (.zero s) = 0 := rfl

/-- A finite number with as many bits as a double has, all of them in use unless the exponent is
the smallest. The exponent may still be too large for a double. -/
def Trim : UnpackedFloat → Prop
  | .zero _ => True
  | .finite _ m e _ => m < 2 ^ 53 ∧ -1074 ≤ e ∧ (2 ^ 52 ≤ m ∨ e = -1074)
  | _ => False

theorem abs_signed (s : Sign) (x : ℝ) : |signed s x| = |x| := by
  cases s with
  | positive => rfl
  | negative => exact abs_neg x

theorem signed_sub (s : Sign) (x y : ℝ) : signed s x - signed s y = signed s (x - y) := by
  cases s with
  | positive => rfl
  | negative =>
      simp only [signed]
      ring

section Round

variable {m : ℕ} {e : ℤ} {acc : Accuracy}

/-- The mantissa after the rounding. -/
def settled (m : ℕ) (e : ℤ) (acc : Accuracy) : ℕ :=
  (ExtendedMantissa.ofMantissaAndAccuracy m acc >>> (quantum m e - e).toNat).roundedMantissa

theorem ofMantissaAndAccuracy_mantissa (m : ℕ) (acc : Accuracy) :
    (ExtendedMantissa.ofMantissaAndAccuracy m acc).mantissa = m := by
  match acc with
  | .exact => rfl
  | .inexact .lt => rfl
  | .inexact .eq => rfl
  | .inexact .gt => rfl

theorem settled_bounds (m : ℕ) (e : ℤ) (acc : Accuracy) :
    m / 2 ^ (quantum m e - e).toNat ≤ settled m e acc ∧
      settled m e acc ≤ m / 2 ^ (quantum m e - e).toNat + 1 := by
  have hbounds := roundedMantissa_bounds
    (ExtendedMantissa.ofMantissaAndAccuracy m acc >>> (quantum m e - e).toNat)
  rw [mantissa_shift, ofMantissaAndAccuracy_mantissa] at hbounds
  exact hbounds

theorem settled_le (m : ℕ) (e : ℤ) (acc : Accuracy) : settled m e acc ≤ 2 ^ 53 := by
  have hshort : m / 2 ^ (quantum m e - e).toNat < 2 ^ 53 := by
    apply Nat.div_lt_of_lt_mul
    have hquantum := quantum_eq m e
    calc m < 2 ^ (m.log2 + 1) := Nat.lt_log2_self
      _ ≤ 2 ^ ((quantum m e - e).toNat + 53) := Nat.pow_le_pow_right (by omega) (by omega)
      _ = 2 ^ (quantum m e - e).toNat * 2 ^ 53 := pow_add _ _ _
  exact le_trans (settled_bounds m e acc).2 hshort

theorem ne_zero_of_quantum (he : e ≤ quantum m e) (hquantum : quantum m e ≠ -1074) : m ≠ 0 := by
  rintro rfl
  have hlog : Nat.log2 0 = 0 := rfl
  rw [quantum_eq, hlog] at he hquantum
  omega

/-- Above the smallest exponent all bits are in use. -/
theorem le_settled (he : e ≤ quantum m e) (hquantum : quantum m e ≠ -1074) :
    2 ^ 52 ≤ settled m e acc := by
  have heq := quantum_eq m e
  have hm := ne_zero_of_quantum he hquantum
  refine le_trans ?_ (settled_bounds m e acc).1
  rw [Nat.le_div_iff_mul_le (Nat.two_pow_pos _), ← pow_add]
  calc 2 ^ (52 + (quantum m e - e).toNat) ≤ 2 ^ m.log2 :=
        Nat.pow_le_pow_right (by omega) (by omega)
    _ ≤ m := Nat.log2_self_le hm

/-- A number is rounded to its settled mantissa at its quantum. -/
theorem roundWithAccuracy_settled (s : Sign) (he : e ≤ quantum m e) :
    Trim (roundWithAccuracy Format.binary64 s m e acc) ∧
      valueOf (roundWithAccuracy Format.binary64 s m e acc) =
        signed s (settled m e acc * 2 ^ quantum m e) := by
  have hquantum := quantum_eq m e
  have hmin : -1074 ≤ quantum m e := by omega
  have hexponent : e + ((quantum m e - e).toNat : ℤ) = quantum m e := by omega
  have hround : roundWithAccuracy Format.binary64 s m e acc =
      if h : (shiftToTargetExponent Format.binary64 (settled m e acc) (quantum m e)
          .exact).1.mantissa = 0 then .zero s
      else .finite s _ (shiftToTargetExponent Format.binary64 (settled m e acc) (quantum m e)
          .exact).2 (Nat.pos_of_ne_zero h) := by
    rw [roundWithAccuracy, shiftToTargetExponent_eq m e acc, hexponent]
    rfl
  rcases (settled_le m e acc).lt_or_eq with hshort | hcarry
  · rw [hround, shiftToTargetExponent_small hshort hmin]
    by_cases hzero : settled m e acc = 0
    · simp only [hzero, ↓reduceDIte]
      refine ⟨trivial, ?_⟩
      cases s with
      | positive => simp [signed]
      | negative => simp [signed]
    · simp only [hzero, ↓reduceDIte]
      refine ⟨⟨hshort, hmin, ?_⟩, rfl⟩
      by_cases hlowest : quantum m e = -1074
      · exact Or.inr hlowest
      · exact Or.inl (le_settled he hlowest)
  -- the rounding reached the next power of two, which takes one bit more than a double has
  · have htwo : (2 : ℝ) ≠ 0 := by norm_num
    rw [hround, hcarry, shiftToTargetExponent_carry hmin]
    refine ⟨⟨by norm_num, by omega, Or.inl le_rfl⟩, ?_⟩
    simp only [Nat.reducePow, OfNat.ofNat_ne_zero, ↓reduceDIte, valueOf, zpow_add₀ htwo]
    congr 1
    push_cast
    ring

end Round

theorem signed_signed (s : Sign) (x : ℝ) : signed s (signed s x) = x := by
  cases s with
  | positive => rfl
  | negative => exact neg_neg x

/-- The unpacked double is what the number is rounded to: no other is closer, and it is off by at
most half a step, where a step is the smallest of all or at most the number's part in `2 ^ 52`. -/
structure Rounds (u : UnpackedFloat) (r : ℝ) : Prop where
  trim : Trim u
  closest : ∀ w, Trim w → |valueOf u - r| ≤ |valueOf w - r|
  near : ∃ t : ℤ, |valueOf u - r| ≤ 2 ^ t / 2 ∧ (t = -1074 ∨ (2 : ℝ) ^ (t + 52) ≤ |r|)

theorem Rounds.self {u : UnpackedFloat} (h : Trim u) : Rounds u (valueOf u) where
  trim := h
  closest := by
    intro w _
    rw [sub_self, abs_zero]
    exact abs_nonneg _
  near := by
    refine ⟨-1074, ?_, Or.inl rfl⟩
    rw [sub_self, abs_zero]
    positivity

theorem rounds_zero (s : Sign) : Rounds (.zero s) 0 := by
  have hself : Rounds (.zero s) (valueOf (.zero s)) := Rounds.self trivial
  rwa [valueOf_zero] at hself

section Closest

/-- An integer within one half of a number is as close to it as any. -/
theorem closest_integer {n : ℤ} {y : ℝ} (h : |(n : ℝ) - y| ≤ 1 / 2) (j : ℤ) :
    |(n : ℝ) - y| ≤ |(j : ℝ) - y| := by
  by_cases hsame : j = n
  · rw [hsame]
  · have hapart : (1 : ℝ) ≤ |(n : ℝ) - j| := by
      exact_mod_cast Int.one_le_abs (sub_ne_zero.mpr (Ne.symm hsame))
    have htriangle : |(n : ℝ) - j| ≤ |(n : ℝ) - y| + |(j : ℝ) - y| := by
      rw [abs_sub_comm (j : ℝ) y]
      exact abs_sub_le _ _ _
    linarith

/-- What is not a multiple of a step has a smaller exponent. -/
theorem multiple_or_short {w : UnpackedFloat} (h : Trim w) (q : ℤ) :
    (∃ j : ℤ, valueOf w = j * 2 ^ q) ∨ (-1074 < q ∧ |valueOf w| < 2 ^ (q + 52)) := by
  match w, h with
  | .zero s, _ => exact Or.inl ⟨0, by simp⟩
  | .finite s m e hm, h =>
      obtain ⟨hshort, hmin, -⟩ := h
      have htwo : (2 : ℝ) ≠ 0 := by norm_num
      by_cases hle : q ≤ e
      · left
        obtain ⟨k, rfl⟩ : ∃ k : ℕ, e = q + k := ⟨(e - q).toNat, by omega⟩
        have hvalue : (m : ℝ) * 2 ^ (q + (k : ℤ)) = (m * 2 ^ k : ℕ) * 2 ^ q := by
          rw [zpow_add₀ htwo, zpow_natCast]
          push_cast
          ring
        cases s with
        | positive =>
            refine ⟨(m * 2 ^ k : ℕ), ?_⟩
            rw [valueOf, signed, hvalue, Int.cast_natCast]
        | negative =>
            refine ⟨-(m * 2 ^ k : ℕ), ?_⟩
            rw [valueOf, signed, hvalue, Int.cast_neg, Int.cast_natCast, neg_mul]
      · right
        have hpos : (0 : ℝ) < 2 ^ e := by positivity
        have hmantissa : (m : ℝ) < 2 ^ (53 : ℤ) := by exact_mod_cast hshort
        have hnonneg : (0 : ℝ) ≤ m * 2 ^ e := by positivity
        refine ⟨by omega, ?_⟩
        rw [valueOf, abs_signed, abs_of_nonneg hnonneg]
        calc (m : ℝ) * 2 ^ e < 2 ^ (53 : ℤ) * 2 ^ e := mul_lt_mul_of_pos_right hmantissa hpos
          _ = 2 ^ (53 + e) := (zpow_add₀ htwo _ _).symm
          _ ≤ 2 ^ (q + 52) := zpow_le_zpow_right₀ (by norm_num) (by omega)

/-- The nearest multiple of a step is the nearest of all doubles, for a number whose doubles have no
smaller step. -/
theorem closest_multiple {w : UnpackedFloat} (hw : Trim w) {q : ℤ} {n : ℕ} {y : ℝ} (s : Sign)
    (hnear : |(n : ℝ) - y| ≤ 1 / 2) (hy : q = -1074 ∨ (2 : ℝ) ^ (52 : ℤ) ≤ y) :
    |signed s (n * 2 ^ q) - signed s (y * 2 ^ q)| ≤ |valueOf w - signed s (y * 2 ^ q)| := by
  have htwo : (2 : ℝ) ≠ 0 := by norm_num
  have hstep : (0 : ℝ) < 2 ^ q := by positivity
  have hself : |signed s (n * 2 ^ q) - signed s (y * 2 ^ q)| = |(n : ℝ) - y| * 2 ^ q := by
    rw [signed_sub, abs_signed, ← sub_mul, abs_mul, abs_of_pos hstep]
  have hinteger (j : ℤ) : |(n : ℝ) - y| ≤ |(j : ℝ) - y| := by
    exact_mod_cast closest_integer (n := n) (by exact_mod_cast hnear) j
  have hother : |valueOf w - signed s (y * 2 ^ q)| = |signed s (valueOf w) - y * 2 ^ q| := by
    rw [← abs_signed s (valueOf w - _), ← signed_sub, signed_signed]
  rw [hself, hother]
  rcases multiple_or_short hw q with ⟨j, hj⟩ | ⟨hlow, hshort⟩
  · obtain ⟨i, hi⟩ : ∃ i : ℤ, signed s (valueOf w) = i * 2 ^ q := by
      cases s with
      | positive => exact ⟨j, hj⟩
      | negative => exact ⟨-j, by rw [signed, hj, Int.cast_neg, neg_mul]⟩
    rw [hi, ← sub_mul, abs_mul, abs_of_pos hstep]
    exact mul_le_mul_of_nonneg_right (hinteger i) hstep.le
  · have hlarge : (2 : ℝ) ^ (52 : ℤ) ≤ y := hy.resolve_left (by omega)
    -- the power of two between the two is a multiple of the step
    have hbetween : |(n : ℝ) - y| ≤ y - 2 ^ (52 : ℤ) := by
      have hpower := hinteger (2 ^ 52)
      have hcast : (((2 ^ 52 : ℤ)) : ℝ) = 2 ^ (52 : ℤ) := by norm_cast
      rwa [hcast, abs_sub_comm (2 ^ (52 : ℤ)) y, abs_of_nonneg (sub_nonneg.mpr hlarge)] at hpower
    have hbelow : signed s (valueOf w) ≤ 2 ^ (52 : ℤ) * 2 ^ q := by
      rw [← zpow_add₀ htwo, add_comm]
      exact (le_abs_self _).trans ((abs_signed s _).le.trans hshort.le)
    rw [abs_sub_comm (signed s (valueOf w))]
    calc |(n : ℝ) - y| * 2 ^ q ≤ (y - 2 ^ (52 : ℤ)) * 2 ^ q :=
          mul_le_mul_of_nonneg_right hbetween hstep.le
      _ ≤ y * 2 ^ q - signed s (valueOf w) := by
          rw [sub_mul]
          linarith
      _ ≤ |y * 2 ^ q - signed s (valueOf w)| := le_abs_self _

end Closest

/-- The settled mantissa is the nearest integer to the number at its quantum. -/
theorem exists_settled {m : ℕ} {e : ℤ} {acc : Accuracy} {x : ℝ} (he : e ≤ quantum m e)
    (hx : Stands (.ofMantissaAndAccuracy m acc) x) :
    ∃ y, x * 2 ^ e = y * 2 ^ quantum m e ∧ 0 ≤ y ∧ |(settled m e acc : ℝ) - y| ≤ 1 / 2 ∧
      (quantum m e = -1074 ∨ (2 : ℝ) ^ (52 : ℤ) ≤ y) := by
  have htwo : (2 : ℝ) ≠ 0 := by norm_num
  have hle : (m : ℝ) ≤ x := by
    have hmantissa := hx.le
    rwa [ofMantissaAndAccuracy_mantissa] at hmantissa
  obtain ⟨k, hk⟩ : ∃ k : ℕ, quantum m e = e + k := ⟨(quantum m e - e).toNat, by omega⟩
  have hshift : (quantum m e - e).toNat = k := by omega
  refine ⟨x / 2 ^ k, ?_, ?_, ?_, ?_⟩
  · rw [hk, zpow_add₀ htwo, zpow_natCast]
    field_simp
  · exact div_nonneg (le_trans (Nat.cast_nonneg m) hle) (by positivity)
  · rw [settled, hshift]
    exact (hx.shift k).rounded
  · by_cases hlowest : quantum m e = -1074
    · exact Or.inl hlowest
    · have heq := quantum_eq m e
      have hm := ne_zero_of_quantum he hlowest
      right
      rw [le_div_iff₀ (by positivity), ← zpow_natCast, ← zpow_add₀ htwo]
      have hexponent : (52 : ℤ) + k = (m.log2 : ℕ) := by omega
      rw [hexponent, zpow_natCast]
      exact le_trans (by exact_mod_cast Nat.log2_self_le hm) hle

theorem rounds_roundWithAccuracy (s : Sign) {m : ℕ} {e : ℤ} {acc : Accuracy} {x : ℝ}
    (he : e ≤ quantum m e) (hx : Stands (.ofMantissaAndAccuracy m acc) x) :
    Rounds (roundWithAccuracy Format.binary64 s m e acc) (signed s (x * 2 ^ e)) := by
  obtain ⟨htrim, hvalue⟩ := @roundWithAccuracy_settled m e acc s he
  obtain ⟨y, hy, hnonneg, hnear, hlarge⟩ := exists_settled he hx
  have htwo : (2 : ℝ) ≠ 0 := by norm_num
  have hstep : (0 : ℝ) < 2 ^ quantum m e := by positivity
  rw [hy]
  refine ⟨htrim, ?_, quantum m e, ?_, ?_⟩
  · intro w hw
    rw [hvalue]
    exact closest_multiple hw s hnear hlarge
  · rw [hvalue, signed_sub, abs_signed, ← sub_mul, abs_mul, abs_of_pos hstep]
    calc |(settled m e acc : ℝ) - y| * 2 ^ quantum m e
        ≤ 1 / 2 * 2 ^ quantum m e := mul_le_mul_of_nonneg_right hnear hstep.le
      _ = 2 ^ quantum m e / 2 := by ring
  · refine hlarge.imp_right ?_
    intro hbig
    rw [abs_signed, abs_of_nonneg (mul_nonneg hnonneg hstep.le), add_comm, zpow_add₀ htwo]
    exact mul_le_mul_of_nonneg_right hbig hstep.le

section Align

/-- A smaller exponent with a longer mantissa stands for the same number. -/
theorem decreaseExponent_value (m : ℕ) (e t : ℤ) :
    ((decreaseExponent m e t).1 : ℝ) * 2 ^ (decreaseExponent m e t).2 = m * 2 ^ e := by
  have htwo : (2 : ℝ) ≠ 0 := by norm_num
  have hexponent : (((e - t).toNat : ℕ) : ℤ) + (e - (e - t).toNat) = e := by omega
  simp only [decreaseExponent, Nat.shiftLeft_eq, Nat.cast_mul, Nat.cast_pow, Nat.cast_ofNat]
  rw [mul_assoc, ← zpow_natCast, ← zpow_add₀ htwo, hexponent]

theorem decreaseExponent_snd {e t : ℤ} (h : t ≤ e) (m : ℕ) : (decreaseExponent m e t).2 = t := by
  simp only [decreaseExponent]
  omega

theorem log2_shiftLeft {m : ℕ} (hm : m ≠ 0) (k : ℕ) : (m <<< k).log2 = m.log2 + k := by
  rw [Nat.shiftLeft_eq, Nat.log2_eq_iff (by positivity)]
  have hlow := Nat.log2_self_le hm
  have hhigh : m < 2 ^ (m.log2 + 1) := Nat.lt_log2_self
  constructor
  · rw [pow_add]
    exact Nat.mul_le_mul_right _ hlow
  · have hpow : 2 ^ (m.log2 + k + 1) = 2 ^ (m.log2 + 1) * 2 ^ k := by ring
    rw [hpow]
    exact Nat.mul_lt_mul_of_pos_right hhigh (Nat.two_pow_pos k)

end Align

theorem rounds_round (s : Sign) {m : ℕ} (hm : m ≠ 0) (e : ℤ) :
    Rounds (UnpackedFloat.round Format.binary64 s m e) (signed s (m * 2 ^ e)) := by
  have hvalue := decreaseExponent_value m e (quantum m e)
  have hquantum : quantum (decreaseExponent m e (quantum m e)).1
      (decreaseExponent m e (quantum m e)).2 = quantum m e := by
    simp only [decreaseExponent, quantum_eq, log2_shiftLeft hm]
    omega
  have hle : (decreaseExponent m e (quantum m e)).2 ≤ quantum
      (decreaseExponent m e (quantum m e)).1 (decreaseExponent m e (quantum m e)).2 := by
    rw [hquantum]
    simp only [decreaseExponent]
    omega
  rw [← hvalue]
  exact rounds_roundWithAccuracy s hle (stands_exact _)

theorem rounds_normalize (n : ℤ) (e : ℤ) (zeroSign : Sign) :
    Rounds (UnpackedFloat.normalize Format.binary64 n e zeroSign) (n * 2 ^ e) := by
  rcases lt_trichotomy n 0 with hneg | rfl | hpos
  · have hcompare : compare n 0 = .lt := Int.compare_eq_lt.mpr hneg
    have hcast : (((-n).toNat : ℕ) : ℝ) = -n := by
      exact_mod_cast Int.toNat_of_nonneg (by omega : 0 ≤ -n)
    have hround := rounds_round .negative (by omega : (-n).toNat ≠ 0) e
    rw [hcast, signed, neg_mul, neg_neg] at hround
    simpa only [UnpackedFloat.normalize, hcompare] using hround
  · rw [Int.cast_zero, zero_mul]
    exact rounds_zero zeroSign
  · have hcompare : compare n 0 = .gt := Int.compare_eq_gt.mpr hpos
    have hcast : ((n.toNat : ℕ) : ℝ) = n := by exact_mod_cast Int.toNat_of_nonneg hpos.le
    have hround := rounds_round .positive (by omega : n.toNat ≠ 0) e
    rw [hcast, signed] at hround
    simpa only [UnpackedFloat.normalize, hcompare] using hround

end Meristem
