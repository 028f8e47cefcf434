import Meristem.Proofs.Rounded.Nearest

/-!
The operations on unpacked doubles are the operations on the numbers they stand for, rounded once.
-/

namespace Meristem

open Float.Model Float.Model.UnpackedFloat

theorem signed_apply (s : Sign) (n : ℕ) : ((s.apply (n : ℤ) : ℤ) : ℝ) = signed s n := by
  cases s with
  | positive => exact Int.cast_natCast n
  | negative =>
      simp only [Sign.apply, signed]
      push_cast
      rfl

theorem signed_mul_right (s : Sign) (x y : ℝ) : signed s x * y = signed s (x * y) := by
  cases s with
  | positive => rfl
  | negative => exact neg_mul x y

theorem signed_mul_signed (s t : Sign) (x y : ℝ) :
    signed s x * signed t y = signed (s * t) (x * y) := by
  cases s with
  | positive =>
      cases t with
      | positive => rfl
      | negative => exact mul_neg x y
  | negative =>
      cases t with
      | positive => exact neg_mul x y
      | negative => exact neg_mul_neg x y

theorem signed_div_signed (s t : Sign) (x y : ℝ) :
    signed s x / signed t y = signed (s / t) (x / y) := by
  cases s with
  | positive =>
      cases t with
      | positive => rfl
      | negative => exact div_neg x
  | negative =>
      cases t with
      | positive => exact neg_div y x
      | negative => exact neg_div_neg_eq x y

theorem signed_neg (s : Sign) (x : ℝ) : signed (-s) x = -signed s x := by
  cases s with
  | positive => rfl
  | negative => exact (neg_neg x).symm

section Sums

variable {a b : UnpackedFloat}

theorem aligned_value {e t : ℤ} (h : t ≤ e) (s : Sign) (m : ℕ) :
    ((s.apply ((decreaseExponent m e t).1 : ℤ) : ℤ) : ℝ) * 2 ^ t = signed s (m * 2 ^ e) := by
  have hvalue := decreaseExponent_value m e t
  rw [decreaseExponent_snd h] at hvalue
  rw [signed_apply, signed_mul_right, hvalue]

theorem rounds_add (ha : Trim a) (hb : Trim b) :
    Rounds (UnpackedFloat.add Format.binary64 a b) (valueOf a + valueOf b) := by
  match a, b, ha, hb with
  | .zero s, .zero t, _, _ =>
      simp only [UnpackedFloat.add, valueOf_zero, add_zero]
      split
      · exact rounds_zero s
      · exact rounds_zero .positive
  | .zero s, .finite t m e hm, _, hb =>
      rw [valueOf_zero, zero_add]
      exact Rounds.self hb
  | .finite s m e hm, .zero t, ha, _ =>
      rw [valueOf_zero, add_zero]
      exact Rounds.self ha
  | .finite s m e hm, .finite t n f hn, _, _ =>
      have hfirst := aligned_value (min_le_left e f) s m
      have hsecond := aligned_value (min_le_right e f) t n
      simp only [valueOf, UnpackedFloat.add]
      rw [← hfirst, ← hsecond, ← add_mul, ← Int.cast_add]
      exact rounds_normalize _ _ _

theorem rounds_sub (ha : Trim a) (hb : Trim b) :
    Rounds (UnpackedFloat.sub Format.binary64 a b) (valueOf a - valueOf b) := by
  match a, b, ha, hb with
  | .zero s, .zero t, _, _ =>
      simp only [UnpackedFloat.sub, valueOf_zero, sub_zero]
      split
      · exact rounds_zero s
      · exact rounds_zero .positive
  | .zero s, .finite t m e hm, _, hb =>
      have hvalue : valueOf (.finite (-t) m e hm) = -valueOf (.finite t m e hm) := signed_neg t _
      rw [valueOf_zero, zero_sub, ← hvalue]
      exact Rounds.self hb
  | .finite s m e hm, .zero t, ha, _ =>
      rw [valueOf_zero, sub_zero]
      exact Rounds.self ha
  | .finite s m e hm, .finite t n f hn, _, _ =>
      have hfirst := aligned_value (min_le_left e f) s m
      have hsecond := aligned_value (min_le_right e f) t n
      simp only [valueOf, UnpackedFloat.sub]
      rw [← hfirst, ← hsecond, ← sub_mul, ← Int.cast_sub]
      exact rounds_normalize _ _ _

end Sums

/-- Enough bits, or a small enough exponent, keep an exponent below its quantum. -/
theorem le_quantum {m : ℕ} {e : ℤ} (h : e ≤ -1074 ∨ 2 ^ 52 ≤ m) : e ≤ quantum m e := by
  have hquantum := quantum_eq m e
  rcases h with hlow | hlong
  · omega
  · have hlog : 52 ≤ m.log2 := (Nat.le_log2 (by omega)).mpr hlong
    omega

theorem rounds_mul {a b : UnpackedFloat} (ha : Trim a) (hb : Trim b) :
    Rounds (UnpackedFloat.mul Format.binary64 a b) (valueOf a * valueOf b) := by
  match a, b, ha, hb with
  | .zero s, .zero t, _, _ =>
      rw [valueOf_zero, zero_mul]
      exact rounds_zero (s * t)
  | .zero s, .finite t m e hm, _, _ =>
      rw [valueOf_zero, zero_mul]
      exact rounds_zero (s * t)
  | .finite s m e hm, .zero t, _, _ =>
      rw [valueOf_zero, mul_zero]
      exact rounds_zero (s * t)
  | .finite s m e hm, .finite t n f hn, ha, hb =>
      obtain ⟨-, hemin, he⟩ := ha
      obtain ⟨-, hfmin, hf⟩ := hb
      have hexponent : e + f ≤ quantum (m * n) (e + f) := by
        apply le_quantum
        rcases he with hlong | hlowest
        · exact Or.inr (le_trans hlong (Nat.le_mul_of_pos_right m hn))
        · rcases hf with hlong | hlowest'
          · exact Or.inr (le_trans hlong (Nat.le_mul_of_pos_left n hm))
          · omega
      have hround := rounds_roundWithAccuracy (s * t) hexponent (stands_exact (m * n))
      have htwo : (2 : ℝ) ≠ 0 := by norm_num
      have hvalue : ((m * n : ℕ) : ℝ) * 2 ^ (e + f) = m * 2 ^ e * (n * 2 ^ f) := by
        rw [zpow_add₀ htwo]
        push_cast
        ring
      rw [hvalue, ← signed_mul_signed] at hround
      exact hround

section Quotient

/-- What is left of a division says where the quotient lies. -/
theorem stands_of_fraction {m n : ℕ} (hn : 0 < n) :
    Stands (.ofMantissaAndAccuracy (m / n) (accuracyOfFraction (m % n) n)) ((m : ℝ) / n) := by
  have hpos : (0 : ℝ) < n := by exact_mod_cast hn
  have hsplit : (m : ℝ) = n * (m / n : ℕ) + (m % n : ℕ) := by
    exact_mod_cast (Nat.div_add_mod m n).symm
  have hquotient : (m : ℝ) / n = (m / n : ℕ) + ((m % n : ℕ) : ℝ) / n := by
    rw [hsplit]
    field_simp
  have hless : ((m % n : ℕ) : ℝ) < n := by exact_mod_cast Nat.mod_lt m hn
  rw [hquotient, accuracyOfFraction]
  split
  · rename_i hzero
    rw [hzero, Nat.cast_zero, zero_div, add_zero]
    exact stands_exact _
  · rename_i hrest
    have hsome : (0 : ℝ) < (m % n : ℕ) := by exact_mod_cast Nat.pos_of_ne_zero hrest
    have hfraction : (0 : ℝ) < ((m % n : ℕ) : ℝ) / n := div_pos hsome hpos
    have hone : ((m % n : ℕ) : ℝ) / n < 1 := (div_lt_one hpos).mpr hless
    rcases lt_trichotomy (2 * (m % n)) n with hlt | heq | hgt
    · have hcompare : compare (2 * (m % n)) n = .lt := Nat.compare_eq_lt.mpr hlt
      have hcast : (2 : ℝ) * (m % n : ℕ) < n := by exact_mod_cast hlt
      have hhalf : ((m % n : ℕ) : ℝ) / n < 1 / 2 := by
        rw [div_lt_iff₀ hpos]
        linarith
      rw [hcompare]
      apply stands_below_half
      · linarith
      · linarith
    · have hcompare : compare (2 * (m % n)) n = .eq := Nat.compare_eq_eq.mpr heq
      have hcast : (2 : ℝ) * (m % n : ℕ) = n := by exact_mod_cast heq
      have hhalf : ((m % n : ℕ) : ℝ) / n = 1 / 2 := by
        rw [div_eq_iff hpos.ne']
        linarith
      rw [hcompare, hhalf]
      exact stands_at_half _
    · have hcompare : compare (2 * (m % n)) n = .gt := Nat.compare_eq_gt.mpr hgt
      have hcast : (n : ℝ) < 2 * (m % n : ℕ) := by exact_mod_cast hgt
      have hhalf : 1 / 2 < ((m % n : ℕ) : ℝ) / n := by
        rw [lt_div_iff₀ hpos]
        linarith
      rw [hcompare]
      apply stands_above_half
      · linarith
      · linarith

/-- A quotient is computed to at least 53 bits, unless it is too small for them. -/
theorem exists_divCore {m n : ℕ} (e f : ℤ) (hm : 0 < m) (hn : 0 < n) :
    ∃ (k : ℕ) (t : ℤ), e - f = t + k ∧ (t ≤ -1074 ∨ 2 ^ 52 ≤ m <<< k / n) ∧
      divCore Format.binary64 m e n f =
        (m <<< k / n, t, accuracyOfFraction (m <<< k % n) n) := by
  have hmin : Format.binary64.minExponent = -1074 := rfl
  have hbits : Format.binary64.mantissaBits = 53 := rfl
  obtain ⟨t, ht⟩ : ∃ t, min (e - f) (Format.binary64.targetExponent
      (totalExponent m e - totalExponent n f)) = t := ⟨_, rfl⟩
  have htarget : t = min (e - f) (max ((m.log2 : ℤ) + e - n.log2 - f - 53) (-1074)) := by
    rw [← ht, Format.targetExponent, totalExponent, totalExponent, hmin, hbits]
    congr 2
    push_cast
    ring
  refine ⟨(e - f - t).toNat, t, by omega, ?_, by simp only [divCore, ht]⟩
  by_cases hlow : t ≤ -1074
  · exact Or.inl hlow
  · right
    rw [Nat.le_div_iff_mul_le hn]
    have hlog : (m <<< (e - f - t).toNat).log2 = m.log2 + (e - f - t).toNat :=
      log2_shiftLeft hm.ne' _
    have hlong : n.log2 + 53 ≤ (m <<< (e - f - t).toNat).log2 := by
      rw [hlog]
      omega
    have hne : m <<< (e - f - t).toNat ≠ 0 := by
      rw [Nat.shiftLeft_eq]
      positivity
    calc 2 ^ 52 * n ≤ 2 ^ 52 * 2 ^ (n.log2 + 1) :=
          Nat.mul_le_mul_left _ Nat.lt_log2_self.le
      _ = 2 ^ (n.log2 + 53) := by ring
      _ ≤ 2 ^ (m <<< (e - f - t).toNat).log2 := Nat.pow_le_pow_right (by omega) hlong
      _ ≤ m <<< (e - f - t).toNat := Nat.log2_self_le hne

theorem rounds_div {a b : UnpackedFloat} (ha : Trim a) (hb : Trim b) (hne : valueOf b ≠ 0) :
    Rounds (UnpackedFloat.div Format.binary64 a b) (valueOf a / valueOf b) := by
  match a, b, ha, hb with
  | .zero s, .zero t, _, _ => exact absurd rfl hne
  | .finite s m e hm, .zero t, _, _ => exact absurd rfl hne
  | .zero s, .finite t n f hn, _, _ =>
      rw [valueOf_zero, zero_div]
      exact rounds_zero (s / t)
  | .finite s m e hm, .finite t n f hn, _, _ =>
      obtain ⟨k, q, hexponent, hlong, hcore⟩ := exists_divCore e f hm hn
      have hround := rounds_roundWithAccuracy (s / t) (le_quantum hlong)
        (stands_of_fraction (m := m <<< k) hn)
      have htwo : (2 : ℝ) ≠ 0 := by norm_num
      have hpos : (n : ℝ) ≠ 0 := by exact_mod_cast hn.ne'
      have hvalue : ((m <<< k : ℕ) : ℝ) / n * 2 ^ q = m * 2 ^ e / (n * 2 ^ f) := by
        have hpower : (2 : ℝ) ^ e = 2 ^ f * 2 ^ q * 2 ^ k := by
          rw [← zpow_natCast, ← zpow_add₀ htwo, ← zpow_add₀ htwo]
          congr 1
          omega
        rw [Nat.shiftLeft_eq, hpower]
        push_cast
        field_simp
      rw [hvalue, ← signed_div_signed] at hround
      simpa only [UnpackedFloat.div, hcore, valueOf] using hround

end Quotient

section Root

/-- What is left of a square root says where the root lies. -/
theorem stands_of_root (m : ℕ) :
    Stands (.ofMantissaAndAccuracy m.sqrt (if m - m.sqrt * m.sqrt = 0 then .exact
      else .inexact (if m - m.sqrt * m.sqrt ≤ m.sqrt then .lt else .gt))) (√(m : ℝ)) := by
  have hle : m.sqrt * m.sqrt ≤ m := Nat.sqrt_le m
  have hlt : m < (m.sqrt + 1) * (m.sqrt + 1) := Nat.lt_succ_sqrt m
  obtain ⟨root, hroot⟩ : ∃ root, m.sqrt = root := ⟨_, rfl⟩
  rw [hroot] at hle hlt ⊢
  have hnonneg : (0 : ℝ) ≤ root := Nat.cast_nonneg root
  split
  · rename_i hrest
    have hsquare : m = root * root := by omega
    have hvalue : √(m : ℝ) = root := by
      rw [hsquare, Nat.cast_mul, Real.sqrt_mul_self hnonneg]
    rw [hvalue]
    exact stands_exact root
  · rename_i hrest
    have hover : root < √(m : ℝ) := by
      have hless : (root : ℝ) * root < m := by exact_mod_cast (by omega : root * root < m)
      rw [Real.lt_sqrt hnonneg, sq]
      exact hless
    split
    · rename_i hlow
      have hhalf : √(m : ℝ) < root + 1 / 2 := by
        have hcast : (m : ℝ) ≤ root * root + root := by
          exact_mod_cast (by omega : m ≤ root * root + root)
        rw [Real.sqrt_lt' (by linarith)]
        nlinarith
      exact stands_below_half hover hhalf
    · rename_i hhigh
      have hhalf : root + 1 / 2 < √(m : ℝ) := by
        have hcast : (root : ℝ) * root + root + 1 ≤ m := by
          exact_mod_cast (by omega : root * root + root + 1 ≤ m)
        rw [Real.lt_sqrt (by linarith)]
        nlinarith
      have hone : √(m : ℝ) < root + 1 := by
        have hcast : (m : ℝ) < (root + 1) * (root + 1) := by exact_mod_cast hlt
        rw [Real.sqrt_lt' (by linarith), sq]
        exact hcast
      exact stands_above_half hhalf hone

/-- A square root is computed to at least 53 bits, unless it is too small for them. -/
theorem exists_sqrtCore {m : ℕ} (e : ℤ) (hm : 0 < m) :
    ∃ (k : ℕ) (t : ℤ), e = 2 * t + k ∧ (t ≤ -1074 ∨ 2 ^ 52 ≤ (m <<< k).sqrt) ∧
      sqrtCore Format.binary64 m e = ((m <<< k).sqrt, t,
        if m <<< k - (m <<< k).sqrt * (m <<< k).sqrt = 0 then .exact
        else .inexact (if m <<< k - (m <<< k).sqrt * (m <<< k).sqrt ≤ (m <<< k).sqrt then .lt
          else .gt)) := by
  have hmin : Format.binary64.minExponent = -1074 := rfl
  have hbits : Format.binary64.mantissaBits = 53 := rfl
  obtain ⟨t, ht⟩ : ∃ t, min (e.ediv 2) (Format.binary64.targetExponent
      ((totalExponent m e + 1).ediv 2)) = t := ⟨_, rfl⟩
  have htarget : t = min (e / 2) (max (((m.log2 : ℤ) + 1 + e + 1) / 2 - 53) (-1074)) := by
    rw [← ht, Format.targetExponent, totalExponent, hmin, hbits]
    rfl
  refine ⟨(e - 2 * t).toNat, t, by omega, ?_, by simp only [sqrtCore, ht]⟩
  by_cases hlow : t ≤ -1074
  · exact Or.inl hlow
  · right
    rw [Nat.le_sqrt]
    have hlog : (m <<< (e - 2 * t).toNat).log2 = m.log2 + (e - 2 * t).toNat :=
      log2_shiftLeft hm.ne' _
    have hlong : 104 ≤ (m <<< (e - 2 * t).toNat).log2 := by
      rw [hlog]
      omega
    have hne : m <<< (e - 2 * t).toNat ≠ 0 := by
      rw [Nat.shiftLeft_eq]
      positivity
    calc 2 ^ 52 * 2 ^ 52 = 2 ^ 104 := by norm_num
      _ ≤ 2 ^ (m <<< (e - 2 * t).toNat).log2 := Nat.pow_le_pow_right (by omega) hlong
      _ ≤ m <<< (e - 2 * t).toNat := Nat.log2_self_le hne

theorem rounds_sqrt {a : UnpackedFloat} (ha : Trim a) (hnonneg : 0 ≤ valueOf a) :
    Rounds (UnpackedFloat.sqrt Format.binary64 a) (√(valueOf a)) := by
  match a, ha with
  | .zero s, _ =>
      rw [valueOf_zero, Real.sqrt_zero]
      exact rounds_zero s
  | .finite .negative m e hm, _ =>
      have hpos : (0 : ℝ) < m * 2 ^ e := by positivity
      simp only [valueOf, signed] at hnonneg
      linarith
  | .finite .positive m e hm, _ =>
      obtain ⟨k, t, hexponent, hlong, hcore⟩ := exists_sqrtCore e hm
      have hround := rounds_roundWithAccuracy .positive (le_quantum hlong)
        (stands_of_root (m <<< k))
      have htwo : (2 : ℝ) ≠ 0 := by norm_num
      have hstep : (0 : ℝ) ≤ 2 ^ t := by positivity
      have hvalue : √((m <<< k : ℕ) : ℝ) * 2 ^ t = √(m * 2 ^ e) := by
        have hpower : (2 : ℝ) ^ e = 2 ^ k * (2 ^ t) ^ 2 := by
          rw [hexponent, zpow_add₀ htwo, zpow_natCast, two_mul, zpow_add₀ htwo]
          ring
        have hsplit : (m : ℝ) * 2 ^ e = (m <<< k : ℕ) * (2 ^ t) ^ 2 := by
          rw [Nat.shiftLeft_eq, hpower]
          push_cast
          ring
        rw [hsplit, Real.sqrt_mul (Nat.cast_nonneg _), Real.sqrt_sq hstep]
      rw [hvalue] at hround
      simpa only [UnpackedFloat.sqrt, hcore, valueOf, signed] using hround

end Root

end Meristem
