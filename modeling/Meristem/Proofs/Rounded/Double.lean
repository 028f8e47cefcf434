import Meristem.Proofs.Rounded.Operations

/-!
Doubles as real numbers. A finite double stands for a number, and the operations on doubles give the
double nearest to what the operation on the numbers gives. They give a finite one unless that is out
of range.
-/

namespace Meristem

open Float.Model Float.Model.UnpackedFloat

/-- The unpacked doubles that can be packed again. -/
def Fits : UnpackedFloat → Prop
  | .zero _ => True
  | .finite _ m e _ => m < 2 ^ 53 ∧ -1074 ≤ e ∧ e ≤ 971 ∧ (2 ^ 52 ≤ m ∨ e = -1074)
  | _ => False

theorem Fits.trim {u : UnpackedFloat} (h : Fits u) : Trim u := by
  match u, h with
  | .zero s, _ => trivial
  | .finite s m e hm, h => exact ⟨h.1, h.2.1, h.2.2.2⟩

section Packing

theorem toNat_leading (m : BitVec 52) : (1#1 ++ m).toNat = 2 ^ 52 + m.toNat := by
  rw [BitVec.toNat_append, ← Nat.shiftLeft_add_eq_or_of_lt m.isLt]
  rfl

/-- The parts of a packed double say what it unpacks to. -/
theorem unpack_packComponents (s : Sign) (e : BitVec 11) (m : BitVec 52) :
    UnpackedFloat.unpack Format.binary64 (packComponents Format.binary64 s e m) =
      if e = -1#11 then (if m = 0#52 then .infinity s else .notANumber)
      else if e = 0#11 then
        (if h : m = 0#52 then .zero s
        else .finite s m.toNat (-1074)
          (by simpa [BitVec.toNat_pos, BitVec.pos_iff_ne_zero] using h))
      else .finite s (2 ^ 52 + m.toNat) (e.toNat - 1075) (by omega) := by
  have hbias : Format.binary64.exponentBias = 1023 := rfl
  unfold UnpackedFloat.unpack
  simp only [unpackMantissa_packComponents, unpackExponent_packComponents,
    unpackSign_packComponents, Sign.ofBitVec_toBitVec, toNat_leading, hbias]
  split
  · rfl
  split
  · rename_i hexponent
    split
    · rfl
    · congr 1
      rw [hexponent]
      rfl
  · rfl

/-- How a finite unpacked double is packed. -/
theorem pack_finite (s : Sign) {m : ℕ} (e : ℤ) (hm : 0 < m) :
    UnpackedFloat.pack Format.binary64 (.finite s m e hm) =
      if 2 ^ 11 ≤ (e + 1075).toNat + 1 then packComponents Format.binary64 s (-1#11) 0#52
      else if m.log2 + 1 = 53 then packComponents Format.binary64 s
        (BitVec.ofNat 11 (e + 1075).toNat) (BitVec.ofNat 52 m)
      else packComponents Format.binary64 s 0#11 (BitVec.ofNat 52 m) := by
  have hbias : Format.binary64.exponentBias = 1023 := rfl
  have hsum : e + (1023 : ℕ) + (52 : ℕ) = e + 1075 := by omega
  simp only [UnpackedFloat.pack, hbias, hsum]
  rfl

theorem ofNat_ne_zero {k n : ℕ} (hn : n < 2 ^ k) (hne : n ≠ 0) : BitVec.ofNat k n ≠ 0#k := by
  intro h
  have hnat := congrArg BitVec.toNat h
  rw [BitVec.toNat_ofNat, BitVec.toNat_ofNat, Nat.mod_eq_of_lt hn] at hnat
  exact hne (by simpa using hnat)

/-- What fits survives the packing. -/
theorem unpack_pack {u : UnpackedFloat} (h : Fits u) : (Float.Model.pack u).unpack = u := by
  match u, h with
  | .zero s, _ =>
      cases s with
      | positive => rfl
      | negative => rfl
  | .finite s m e hm, h =>
      obtain ⟨hshort, hmin, hmax, hlong⟩ := h
      have hunpack : (Float.Model.pack (.finite s m e hm)).unpack =
          UnpackedFloat.unpack Format.binary64
            (UnpackedFloat.pack Format.binary64 (.finite s m e hm)) := rfl
      have hinside : ¬ 2 ^ 11 ≤ (e + 1075).toNat + 1 := by omega
      rw [hunpack, pack_finite, if_neg hinside]
      by_cases hfull : 2 ^ 52 ≤ m
      · have hlog : m.log2 + 1 = 53 := by
          rw [(Nat.log2_eq_iff (by omega)).mpr ⟨hfull, hshort⟩]
        have hbiased : (BitVec.ofNat 11 (e + 1075).toNat).toNat = (e + 1075).toNat := by
          rw [BitVec.toNat_ofNat, Nat.mod_eq_of_lt (by omega)]
        have hzero : BitVec.ofNat 11 (e + 1075).toNat ≠ 0#11 := ofNat_ne_zero (by omega) (by omega)
        have hones : BitVec.ofNat 11 (e + 1075).toNat ≠ -1#11 := by
          intro hsame
          have hnat := congrArg BitVec.toNat hsame
          rw [hbiased] at hnat
          have hlast : (-1#11).toNat = 2047 := rfl
          omega
        have hrest : (BitVec.ofNat 52 m).toNat = m - 2 ^ 52 := by
          rw [BitVec.toNat_ofNat]
          omega
        rw [if_pos hlog, unpack_packComponents, if_neg hones, if_neg hzero]
        congr 1
        · rw [hrest]
          omega
        · rw [hbiased]
          omega
      · have hlog : m.log2 + 1 ≠ 53 := by
          have hless : m.log2 < 52 := (Nat.log2_lt (by omega)).mpr (by omega)
          omega
        have hzero : BitVec.ofNat 52 m ≠ 0#52 := ofNat_ne_zero (by omega) (by omega)
        have hones : (0#11) ≠ -1#11 := by decide
        have hrest : (BitVec.ofNat 52 m).toNat = m := by
          rw [BitVec.toNat_ofNat, Nat.mod_eq_of_lt (by omega)]
        rw [if_neg hlog, unpack_packComponents, if_neg hones, if_pos rfl, dif_neg hzero]
        congr 1
        omega

/-- A double that is out of range is packed as an infinity. -/
theorem unpack_pack_overflow (s : Sign) {m : ℕ} {e : ℤ} (hm : 0 < m) (he : 972 ≤ e) :
    (Float.Model.pack (.finite s m e hm)).unpack = .infinity s := by
  have hunpack : (Float.Model.pack (.finite s m e hm)).unpack =
      UnpackedFloat.unpack Format.binary64
        (UnpackedFloat.pack Format.binary64 (.finite s m e hm)) := rfl
  have hover : 2 ^ 11 ≤ (e + 1075).toNat + 1 := by omega
  rw [hunpack, pack_finite, if_pos hover, unpack_packComponents]
  rfl

/-- What is unpacked fits, unless it is no number. -/
theorem fits_unpack (b : BitVec 64)
    (h : (UnpackedFloat.unpack Format.binary64 b).isFinite = true) :
    Fits (UnpackedFloat.unpack Format.binary64 b) := by
  have hbias : Format.binary64.exponentBias = 1023 := rfl
  obtain ⟨m, hm⟩ : ∃ m : BitVec 52, @unpackMantissa Format.binary64 b = m := ⟨_, rfl⟩
  obtain ⟨e, he⟩ : ∃ e : BitVec 11, @unpackExponent Format.binary64 b = e := ⟨_, rfl⟩
  have hshort := m.isLt
  have hbiased := e.isLt
  unfold UnpackedFloat.unpack at h ⊢
  simp only [hbias, hm, he, toNat_leading] at h ⊢
  by_cases hones : e = -1#11
  · rw [if_pos hones] at h
    split at h
    · simp [UnpackedFloat.isFinite] at h
    · simp [UnpackedFloat.isFinite] at h
  · rw [if_neg hones]
    by_cases hlowest : e = 0#11
    · rw [if_pos hlowest]
      split
      · trivial
      · refine ⟨by omega, ?_, ?_, Or.inr ?_⟩
        · rw [hlowest]
          decide
        · rw [hlowest]
          decide
        · rw [hlowest]
          rfl
    · rw [if_neg hlowest]
      have hpos : e.toNat ≠ 0 := by
        intro hzero
        exact hlowest (BitVec.eq_of_toNat_eq hzero)
      have hless : e.toNat ≠ 2047 := by
        intro hlast
        exact hones (BitVec.eq_of_toNat_eq hlast)
      exact ⟨by omega, by omega, by omega, Or.inl (by omega)⟩

end Packing

/-- The number that a finite double stands for. -/
noncomputable def toReal (x : Float) : ℝ := valueOf x.toModel.unpack

theorem fits_of_isFinite {x : Float} (h : x.isFinite = true) : Fits x.toModel.unpack :=
  fits_unpack x.toModel.toBits.toBitVec h

theorem toReal_zero : toReal (0.0 : Float) = 0 := rfl

theorem toReal_one : toReal (1.0 : Float) = 1 := by
  have hvalue : toReal (1.0 : Float) = (4503599627370496 : ℕ) * 2 ^ (-52 : ℤ) := rfl
  rw [hvalue]
  norm_num

/-- The double is what the number is rounded to. -/
structure Nearest (z : Float) (r : ℝ) : Prop where
  finite : |r| < 2 ^ (1024 : ℤ) - 2 ^ (970 : ℤ) → z.isFinite = true
  closest : z.isFinite = true → ∀ w : Float, w.isFinite = true →
    |toReal z - r| ≤ |toReal w - r|
  near : z.isFinite = true → |toReal z - r| ≤ halfStep r

section Nearest

theorem fits_or_overflows {u : UnpackedFloat} (h : Trim u) :
    Fits u ∨ ∃ s m e, ∃ hm : 0 < m, u = .finite s m e hm ∧ 972 ≤ e ∧ 2 ^ 52 ≤ m := by
  match u, h with
  | .zero s, _ => exact Or.inl trivial
  | .finite s m e hm, h =>
      obtain ⟨hshort, hmin, hlong⟩ := h
      by_cases hmax : e ≤ 971
      · exact Or.inl ⟨hshort, hmin, hmax, hlong⟩
      · refine Or.inr ⟨s, m, e, hm, rfl, by omega, ?_⟩
        rcases hlong with hlong | hlowest
        · exact hlong
        · omega

/-- Half a step is the smallest half or a small part of the number. -/
theorem half_le_halfStep {t : ℤ} {r : ℝ} (h : t = -1074 ∨ (2 : ℝ) ^ (t + 52) ≤ |r|) :
    (2 : ℝ) ^ t / 2 ≤ halfStep r := by
  have htwo : (2 : ℝ) ≠ 0 := by norm_num
  have hpart : 0 ≤ |r| * (2 : ℝ) ^ (-53 : ℤ) := by positivity
  have hsmallest : (0 : ℝ) ≤ 2 ^ (-1075 : ℤ) := by positivity
  rcases h with rfl | hstep
  · have hhalf : (2 : ℝ) ^ (-1074 : ℤ) / 2 = 2 ^ (-1075 : ℤ) := by
      rw [show (-1074 : ℤ) = -1075 + 1 by norm_num, zpow_add₀ htwo, zpow_one,
        mul_div_cancel_right₀ _ htwo]
    rw [hhalf, halfStep]
    linarith
  · have hhalf : (2 : ℝ) ^ t / 2 = 2 ^ (t + 52) * 2 ^ (-53 : ℤ) := by
      rw [← zpow_add₀ htwo, show t + 52 + -53 = t - 1 by ring, zpow_sub₀ htwo, zpow_one]
    rw [hhalf, halfStep]
    have hscaled : (2 : ℝ) ^ (t + 52) * 2 ^ (-53 : ℤ) ≤ |r| * 2 ^ (-53 : ℤ) :=
      mul_le_mul_of_nonneg_right hstep (by positivity)
    linarith

theorem half_of_double {t : ℤ} (h : t ≤ 971) : (2 : ℝ) ^ t / 2 ≤ 2 ^ (970 : ℤ) := by
  have hdouble : (2 : ℝ) ^ (971 : ℤ) = 2 * 2 ^ (970 : ℤ) := by
    rw [show (971 : ℤ) = 1 + 970 by norm_num, zpow_add₀ (by norm_num), zpow_one]
  rw [div_le_iff₀ (by norm_num), mul_comm, ← hdouble]
  exact zpow_le_zpow_right₀ (by norm_num) h

/-- A number in range does not round to one that is out of range. -/
theorem abs_valueOf_lt {u : UnpackedFloat} {r : ℝ} (h : Rounds u r)
    (hr : |r| < 2 ^ (1024 : ℤ) - 2 ^ (970 : ℤ)) : |valueOf u| < 2 ^ (1024 : ℤ) := by
  obtain ⟨t, hnear, ht⟩ := h.near
  have hlow : t ≤ 971 := by
    rcases ht with rfl | hstep
    · norm_num
    · have hless : (2 : ℝ) ^ (t + 52) < 2 ^ (1024 : ℤ) :=
        lt_of_le_of_lt hstep (hr.trans (sub_lt_self _ (by positivity)))
      have hexponent := (zpow_lt_zpow_iff_right₀ (by norm_num)).mp hless
      omega
  have htriangle : |valueOf u| ≤ |valueOf u - r| + |r| := by
    have hsum := abs_add_le (valueOf u - r) r
    rwa [sub_add_cancel] at hsum
  calc |valueOf u| ≤ |valueOf u - r| + |r| := htriangle
    _ ≤ 2 ^ (970 : ℤ) + |r| := by
        have hhalf := hnear.trans (half_of_double hlow)
        gcongr
    _ < 2 ^ (970 : ℤ) + (2 ^ (1024 : ℤ) - 2 ^ (970 : ℤ)) := by gcongr
    _ = 2 ^ (1024 : ℤ) := add_sub_cancel _ _

theorem isFinite_ofModel {u : UnpackedFloat} (h : Fits u) :
    (Float.ofModel (Float.Model.pack u)).isFinite = true := by
  change (Float.Model.pack u).unpack.isFinite = true
  rw [unpack_pack h]
  match u, h with
  | .zero s, _ => rfl
  | .finite s m e hm, _ => rfl

theorem toReal_ofModel {u : UnpackedFloat} (h : Fits u) :
    toReal (.ofModel (Float.Model.pack u)) = valueOf u :=
  congrArg valueOf (unpack_pack h)

theorem Rounds.nearest {u : UnpackedFloat} {r : ℝ} (h : Rounds u r) :
    Nearest (.ofModel (Float.Model.pack u)) r := by
  rcases fits_or_overflows h.trim with hfits | ⟨s, m, e, hm, rfl, he, hlong⟩
  · refine ⟨fun _ => isFinite_ofModel hfits, fun _ w hw => ?_, fun _ => ?_⟩
    · rw [toReal_ofModel hfits]
      exact h.closest _ (fits_of_isFinite hw).trim
    · obtain ⟨t, hnear, ht⟩ := h.near
      rw [toReal_ofModel hfits]
      exact hnear.trans (half_le_halfStep ht)
  · have hover : (Float.ofModel (Float.Model.pack (.finite s m e hm))).isFinite ≠ true := by
      change (Float.Model.pack (.finite s m e hm)).unpack.isFinite ≠ true
      rw [unpack_pack_overflow s hm he]
      simp [UnpackedFloat.isFinite]
    refine ⟨fun hr => ?_, fun hfinite => absurd hfinite hover, fun hfinite => absurd hfinite hover⟩
    have hless := abs_valueOf_lt h hr
    have hmantissa : (2 : ℝ) ^ (52 : ℤ) ≤ m := by exact_mod_cast hlong
    have hpower : (2 : ℝ) ^ (972 : ℤ) ≤ 2 ^ e := zpow_le_zpow_right₀ (by norm_num) he
    have hlarge : (2 : ℝ) ^ (1024 : ℤ) ≤ m * 2 ^ e :=
      calc (2 : ℝ) ^ (1024 : ℤ) = 2 ^ (52 + 972 : ℤ) := rfl
        _ = 2 ^ (52 : ℤ) * 2 ^ (972 : ℤ) := zpow_add₀ (by norm_num) _ _
        _ ≤ m * 2 ^ e := mul_le_mul hmantissa hpower (by positivity) (by positivity)
    have hnonneg : (0 : ℝ) ≤ m * 2 ^ e := by positivity
    rw [valueOf, abs_signed, abs_of_nonneg hnonneg] at hless
    exact absurd hlarge (not_le.mpr hless)

/-- The largest double leaves some room below the first number that is out of range. -/
theorem abs_toReal_le {x : Float} (h : x.isFinite = true) :
    |toReal x| ≤ 2 ^ (1024 : ℤ) - 2 ^ (971 : ℤ) := by
  have hfits := fits_of_isFinite h
  unfold toReal
  match x.toModel.unpack, hfits with
  | .zero s, _ =>
      have hpower : (2 : ℝ) ^ (971 : ℤ) ≤ 2 ^ (1024 : ℤ) :=
        zpow_le_zpow_right₀ (by norm_num) (by norm_num)
      rw [valueOf_zero, abs_zero]
      exact sub_nonneg.mpr hpower
  | .finite s m e hm, h =>
      have hnonneg : (0 : ℝ) ≤ m * 2 ^ e := by positivity
      have hmantissa : (m : ℝ) ≤ 2 ^ (53 : ℤ) - 1 := by
        rw [le_sub_iff_add_le]
        exact_mod_cast h.1
      have hroom : (0 : ℝ) ≤ 2 ^ (53 : ℤ) - 1 := by norm_num
      rw [valueOf, abs_signed, abs_of_nonneg hnonneg]
      calc (m : ℝ) * 2 ^ e ≤ (2 ^ (53 : ℤ) - 1) * 2 ^ (971 : ℤ) :=
            mul_le_mul hmantissa (zpow_le_zpow_right₀ (by norm_num) h.2.2.1) (by positivity) hroom
        _ = 2 ^ (53 : ℤ) * 2 ^ (971 : ℤ) - 2 ^ (971 : ℤ) := by rw [sub_mul, one_mul]
        _ = 2 ^ (1024 : ℤ) - 2 ^ (971 : ℤ) := by
            rw [← zpow_add₀ (by norm_num)]
            rfl

theorem Nearest.isFinite {z : Float} {r : ℝ} (h : Nearest z r) (hr : |r| ≤ 2 ^ (1000 : ℤ)) :
    z.isFinite = true := by
  apply h.finite
  have hsplit : (2 : ℝ) ^ (970 : ℤ) + 2 ^ (1000 : ℤ) < 2 ^ (1024 : ℤ) :=
    calc (2 : ℝ) ^ (970 : ℤ) + 2 ^ (1000 : ℤ) ≤ 2 ^ (1000 : ℤ) + 2 ^ (1000 : ℤ) := by
          gcongr
          · norm_num
          · norm_num
      _ = 2 ^ (1001 : ℤ) := by
          rw [← two_mul, ← zpow_one_add₀ (by norm_num)]
          rfl
      _ < 2 ^ (1024 : ℤ) := zpow_lt_zpow_right₀ (by norm_num) (by norm_num)
  exact lt_of_le_of_lt hr (lt_sub_iff_add_lt'.mpr hsplit)

theorem lt_overflow {r : ℝ} (h : |r| ≤ 2 ^ (1024 : ℤ) - 2 ^ (971 : ℤ)) :
    |r| < 2 ^ (1024 : ℤ) - 2 ^ (970 : ℤ) := by
  refine lt_of_le_of_lt h (sub_lt_sub_left ?_ _)
  exact zpow_lt_zpow_right₀ (by norm_num) (by norm_num)

theorem Nearest.isFinite_of_double {z w : Float} {r : ℝ} (h : Nearest z r)
    (hw : w.isFinite = true) (hr : toReal w = r) : z.isFinite = true := by
  apply h.finite
  rw [← hr]
  exact lt_overflow (abs_toReal_le hw)

/-- A number that is a double is rounded to itself. -/
theorem Nearest.exact {z w : Float} {r : ℝ} (h : Nearest z r) (hw : w.isFinite = true)
    (hr : toReal w = r) : z.isFinite = true ∧ toReal z = r := by
  have hfinite := h.isFinite_of_double hw hr
  have hclosest := h.closest hfinite w hw
  rw [hr, sub_self, abs_zero] at hclosest
  exact ⟨hfinite, sub_eq_zero.mp (abs_nonpos_iff.mp hclosest)⟩

/-- What is not negative is not rounded to anything negative. -/
theorem Nearest.nonneg {z : Float} {r : ℝ} (h : Nearest z r) (hz : z.isFinite = true)
    (hr : 0 ≤ r) : 0 ≤ toReal z := by
  have hzero := h.closest hz 0 rfl
  have hvalue : toReal 0 = 0 := rfl
  rw [hvalue, zero_sub, abs_neg, abs_of_nonneg hr, abs_le] at hzero
  linarith [hzero.1]

/-- A number that a double is not below is not rounded above it. -/
theorem Nearest.le_of_le {z w : Float} {r : ℝ} (h : Nearest z r) (hz : z.isFinite = true)
    (hw : w.isFinite = true) (hr : r ≤ toReal w) : toReal z ≤ toReal w := by
  have hclosest := h.closest hz w hw
  rw [abs_of_nonneg (sub_nonneg.mpr hr)] at hclosest
  linarith [le_abs_self (toReal z - r)]

end Nearest

section Operations

variable {x y : Float}

theorem add_nearest (hx : x.isFinite = true) (hy : y.isFinite = true) :
    Nearest (x + y) (toReal x + toReal y) :=
  (rounds_add (fits_of_isFinite hx).trim (fits_of_isFinite hy).trim).nearest

theorem sub_nearest (hx : x.isFinite = true) (hy : y.isFinite = true) :
    Nearest (x - y) (toReal x - toReal y) :=
  (rounds_sub (fits_of_isFinite hx).trim (fits_of_isFinite hy).trim).nearest

theorem mul_nearest (hx : x.isFinite = true) (hy : y.isFinite = true) :
    Nearest (x * y) (toReal x * toReal y) :=
  (rounds_mul (fits_of_isFinite hx).trim (fits_of_isFinite hy).trim).nearest

theorem div_nearest (hx : x.isFinite = true) (hy : y.isFinite = true) (hne : toReal y ≠ 0) :
    Nearest (x / y) (toReal x / toReal y) :=
  (rounds_div (fits_of_isFinite hx).trim (fits_of_isFinite hy).trim hne).nearest

theorem sqrt_nearest (hx : x.isFinite = true) (hnonneg : 0 ≤ toReal x) :
    Nearest x.sqrt (√(toReal x)) :=
  (rounds_sqrt (fits_of_isFinite hx).trim hnonneg).nearest

end Operations

section Operands

/-- What is no number stays so when it is packed. -/
theorem unpack_pack_special {u : UnpackedFloat} (h : u.isFinite = false) :
    (Float.Model.pack u).unpack = u := by
  match u, h with
  | .notANumber, _ => rfl
  | .infinity .positive, _ => rfl
  | .infinity .negative, _ => rfl

theorem isFinite_of_ofModel {u : UnpackedFloat}
    (h : (Float.ofModel (Float.Model.pack u)).isFinite = true) : u.isFinite = true := by
  by_contra hspecial
  rw [Bool.not_eq_true] at hspecial
  change (Float.Model.pack u).unpack.isFinite = true at h
  rw [unpack_pack_special hspecial, hspecial] at h
  exact absurd h (by decide)

theorem special_add_left {a : UnpackedFloat} (b : UnpackedFloat) (h : a.isFinite = false) :
    (UnpackedFloat.add Format.binary64 a b).isFinite = false := by
  match a, b, h with
  | .notANumber, b, _ => rfl
  | .infinity s, .notANumber, _ => rfl
  | .infinity s, .infinity t, _ =>
      simp only [UnpackedFloat.add]
      split
      · rfl
      · rfl
  | .infinity s, .zero t, _ => rfl
  | .infinity s, .finite t m e hm, _ => rfl

theorem special_add_right (a : UnpackedFloat) {b : UnpackedFloat} (h : b.isFinite = false) :
    (UnpackedFloat.add Format.binary64 a b).isFinite = false := by
  match a, b, h with
  | .notANumber, b, _ => rfl
  | .infinity s, b, _ => exact special_add_left b rfl
  | .zero s, .notANumber, _ => rfl
  | .zero s, .infinity t, _ => rfl
  | .finite s m e hm, .notANumber, _ => rfl
  | .finite s m e hm, .infinity t, _ => rfl

variable {x y : Float}

/-- A sum is finite only if what is added is. -/
theorem isFinite_of_add (h : (x + y).isFinite = true) :
    x.isFinite = true ∧ y.isFinite = true := by
  have hsum := isFinite_of_ofModel h
  constructor
  · by_contra hspecial
    rw [special_add_left _ (eq_false_of_ne_true hspecial)] at hsum
    exact absurd hsum (by decide)
  · by_contra hspecial
    rw [special_add_right _ (eq_false_of_ne_true hspecial)] at hsum
    exact absurd hsum (by decide)

theorem isFinite_of_mul_self (h : (x * x).isFinite = true) : x.isFinite = true := by
  have hsquare := isFinite_of_ofModel h
  change x.toModel.unpack.isFinite = true
  match x.toModel.unpack, hsquare with
  | .zero s, _ => rfl
  | .finite s m e hm, _ => rfl

theorem isFinite_of_sqrt (h : x.sqrt.isFinite = true) : x.isFinite = true := by
  have hroot := isFinite_of_ofModel h
  change x.toModel.unpack.isFinite = true
  match x.toModel.unpack, hroot with
  | .zero s, _ => rfl
  | .finite s m e hm, _ => rfl
  | .infinity .negative, hroot => exact hroot
  | .infinity .positive, hroot => exact hroot

end Operands

end Meristem
